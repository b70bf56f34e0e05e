import AtmKoala.Btrfs.Label

/-!
A new label that is cut off: `label_crash_safe`, for every cut of the writes.

The condition on sector 0 is there because the driver puts 28 bits of a sector number on the
bus: the third mirror of a partition at sector `2^28` is at sector 0 for it, and a new label
goes over the partition table (`label_over_table`).
-/

namespace AtmKoala.Btrfs

open Lib Partmgr
open Catfs (World)

/-- A superblock mixed from old and new sectors fails its checksum. -/
def TornDetected (old new : Super) : Prop :=
  ∀ m, mix new old m = new ∨ mix new old m = old ∨ csumOk (mix new old m) = false

/-- **A new label survives a power cut.** -/
theorem label_crash_safe {w : World} {st₀ st : BtrfsState} {drive part : Int} {label : Bytes}
    (probed : btrfsProbePartition w st₀ drive part = (st, true))
    (two : ∃ i j, i ≠ j ∧ (st.mirrors i).Sound ∧ (st.mirrors j).Sound)
    (level : ∀ i j, (st.mirrors i).Sound → (st.mirrors j).Sound →
      (st.mirrors i).generation = (st.mirrors j).generation)
    (ok : labelOk label = true)
    (detected : ∀ i, (st.mirrors i).usable = true →
      TornDetected (superAt w.disk drive st.partLba i)
        (relabel (superAt w.disk drive st.partLba i) (st.generation + 1) label))
    (clear : ∀ i, (st.mirrors i).usable = true → ∀ j, j < 8 →
      mirrorAddr drive st.partLba i j ≠ (drive, 0)) (flush : Fin 3 → Bool) :
    ∃ writes, (btrfsLabelSet flush w (btrfsSetWriteEnabled st true).1 label).1 = wrote w writes ∧
      AllCuts (fun disk => ∀ st₁, ∃ st₂, btrfsProbePartition { w with disk := disk } st₁ drive part =
        (st₂, true) ∧ (∃ i, st₂.selectedMirror = some i ∧ (st₂.mirrors i).csumOk = true) ∧
        (st₂.label = st.label ∨ st₂.label = label)) w.disk writes := by
  classical
  obtain ⟨e, before, table, selected, state⟩ := probe_some probed
  obtain ⟨writes, after, ⟨k, some⟩, -⟩ := labelSet_writes flush label state
  have startEq : st.partLba = e.lbaStart := by rw [state]; rfl
  have mirrorsEq : st.mirrors = mirrorsOf (Shown w.drives drive e) (superAt w.disk drive e.lbaStart) := by
    rw [state, ← mirrorsAt_eq]
    rfl
  have short := labelOk_length ok
  rw [startEq] at detected clear
  have usable : ∀ x, (st.mirrors x).usable = true ↔
      Shown w.drives drive e x ∧ csumOk (superAt w.disk drive e.lbaStart x) = true := by
    intro x
    rw [mirrorsEq]
    exact usable_iff
  have csumNew : ∀ x, (st.mirrors x).usable = true →
      csumOk (relabel (superAt w.disk drive e.lbaStart x) (st.generation + 1) label) = true := by
    intro x used
    have csum := ((usable x).mp used).2
    unfold csumOk at csum
    rw [decide_eq_true_iff] at csum
    exact relabel_csum csum.1 short
  refine ⟨writes, after, fun n st₁ => ?_⟩
  have cut := cut_of_writes (fun x used => ((usable x).mp used).2) csumNew detected (min n k)
  rw [show (fun x => (st.mirrors x).usable = true) = fun x => Shown w.drives drive e x ∧
    csumOk (superAt w.disk drive e.lbaStart x) = true from funext fun x => propext (usable x)] at cut
  obtain ⟨full, fullEq⟩ : ∃ full, full = (written fun x => (st.mirrors x).usable).flatMap fun x =>
    mirrorWrites drive e.lbaStart x
      (relabel (superAt w.disk drive e.lbaStart x) (st.generation + 1) label) := ⟨_, rfl⟩
  rw [← fullEq] at some cut
  rw [some, List.take_take]
  obtain ⟨w', world⟩ : ∃ w', w' = { w with disk := applyWrites w.disk (full.take (min n k)) } := ⟨_, rfl⟩
  have drives : w'.drives = w.drives := by rw [world]
  have disk : w'.disk = applyWrites w.disk (full.take (min n k)) := by rw [world]
  have now : Table w' drive part e := by
    refine table.of_sector drives ?_
    rw [disk]
    refine applyWrites_of_forall_ne fun v mem => ?_
    rw [fullEq] at mem
    obtain ⟨x, used, inRow⟩ := List.mem_flatMap.mp (List.mem_of_mem_take mem)
    obtain ⟨j, less, rfl⟩ := List.mem_map.mp inRow
    exact clear x (mem_written.mp used) j (List.mem_range.mp less)
  rw [mirrorsEq] at two level
  rw [mirrorsAt_eq] at selected
  obtain ⟨s, chosen, csum, which⟩ := cut.select (fun x valid => relabel_valid short valid) two level selected
  have found : mirrorsAt w' drive e = mirrorsOf (Shown w.drives drive e)
      (superAt (applyWrites w.disk (full.take (min n k))) drive e.lbaStart) := by
    rw [mirrorsAt_eq, drives, disk]
  rw [← mirrorsAt_eq] at selected
  rw [← found] at chosen csum
  rw [← world, probe_eq st₁ now, chosen]
  refine ⟨_, rfl, ⟨s, rfl, csum⟩, ?_⟩
  rw [(selectedState_label chosen).1, state, (selectedState_label selected).1, disk]
  rcases which with same | ⟨this, same⟩
  · right
    rw [same]
    exact relabel_string ok (by omega) (by omega)
  · left
    rw [same, this]

/-! ### Two mirrors -/

/-- A change within the first sector is never torn. -/
theorem tornDetected_of_first {old new : Super} (same : ∀ k, 512 ≤ k → k < 4096 → new.byteAt k = old.byteAt k) :
    TornDetected old new := by
  intro m
  cases m with
  | zero =>
    right
    left
    funext k
    unfold mix
    rw [if_neg (Nat.not_lt_zero _)]
  | succ m =>
    left
    funext k
    unfold mix
    split
    · rfl
    · have bytes := same k.val (by omega) k.isLt
      unfold Block.byteAt at bytes
      rw [dif_pos k.isLt, dif_pos k.isLt] at bytes
      exact bytes.symm

theorem tornDetected_image (i : Fin 3) (generation used next : UInt64) (over_ : Nat → UInt8) :
    TornDetected (imageSuper i generation used over_)
      (relabel (imageSuper i generation used over_) next [0x78]) := by
  refine tornDetected_of_first fun k behind less => ?_
  rw [imageSuper_behind i generation used over_ behind less,
    relabel_byteAt (by decide) (by omega) less, if_neg (by omega), if_neg (by omega)]
  split
  · rw [List.getD_eq_default _ _ (by show 1 ≤ k - 299; omega)]
  · exact imageSuper_behind i generation used over_ behind less

section Pair

variable {s₀ s₁ : Super}

/-- A partition at sector 2048 with two mirrors. -/
def mirrorPair (s₀ s₁ : Super) : World where
  drives := fun _ => ⟨true, 400000, fun _ => false, fun _ => false⟩
  disk := fun at' =>
    if at'.2 = 0 then
      mbrSector ⟨fun _ => ⟨0, fun _ => 0, 0x83, fun _ => 0, 2048, 200000⟩, true⟩ (Block.zero 512)
    else if 2176 ≤ at'.2 ∧ at'.2 < 2184 then sector s₀ (at'.2 - 2176)
    else if 133120 ≤ at'.2 ∧ at'.2 < 133128 then sector s₁ (at'.2 - 133120)
    else Block.zero 512
  issued := []
  catfs := Catfs.formatState 0 0 [] 0

def pairEntry : MbrEntry := (mbrRead (mirrorPair (Block.zero 4096) (Block.zero 4096)) 0 mbrInitEmpty).1.entries 0

theorem pairEntry_start : pairEntry.lbaStart = 2048 := by decide

theorem pair_table : Table (mirrorPair s₀ s₁) 0 0 pairEntry := by
  have zero : Table (mirrorPair (Block.zero 4096) (Block.zero 4096)) 0 0 pairEntry :=
    ⟨by decide, ⟨0, rfl, rfl⟩, by decide, by decide, by decide⟩
  exact zero.of_sector rfl rfl

theorem pair_super :
    superAt (mirrorPair s₀ s₁).disk 0 2048 0 = s₀ ∧ superAt (mirrorPair s₀ s₁).disk 0 2048 1 = s₁ := by
  have first : (2048 : UInt32).toNat + (mirrorOffset 0).toNat / 512 = 2176 := by decide
  have second : (2048 : UInt32).toNat + (mirrorOffset 1).toNat / 512 = 133120 := by decide
  refine ⟨superAt_of_sectors fun j less => ?_, superAt_of_sectors fun j less => ?_⟩
  · rw [mirrorAddr_eq 0 2048 0 less, first, Nat.mod_eq_of_lt (by omega)]
    unfold mirrorPair
    dsimp only
    rw [if_neg (by omega), if_pos (by omega), Nat.add_sub_cancel_left]
  · rw [mirrorAddr_eq 0 2048 1 less, second, Nat.mod_eq_of_lt (by omega)]
    unfold mirrorPair
    dsimp only
    rw [if_neg (by omega), if_neg (by omega), if_pos (by omega), Nat.add_sub_cancel_left]

theorem pair_shown {x : Fin 3} : Shown (mirrorPair s₀ s₁).drives 0 pairEntry x ↔ x ≠ 2 := by
  have size : pairEntry.sectorCount.toNat = 200000 := by decide
  have start : pairEntry.lbaStart.toNat = 2048 := by decide
  have offsets : ∀ x : Fin 3, (mirrorOffset x).toNat + 4096 ≤ 200000 * 512 ↔ x ≠ 2 := by decide
  unfold Shown
  rw [size, offsets]
  refine ⟨fun h => h.1, fun h => ⟨h, ?_, fun j _ => ⟨by decide, by decide, rfl, rfl⟩⟩⟩
  have inside := (offsets x).mpr h
  unfold mirrorLba
  rw [start]
  omega

/-- Both mirrors are sound, with the generations of their superblocks. -/
theorem pair_sound (valid₀ : superValidAt s₀ (mirrorOffset 0) = true)
    (valid₁ : superValidAt s₁ (mirrorOffset 1) = true) :
    ((mirrorsAt (mirrorPair s₀ s₁) 0 pairEntry 0).Sound ∧
      (mirrorsAt (mirrorPair s₀ s₁) 0 pairEntry 0).generation = u64At s₀.byteAt 0x48) ∧
    (mirrorsAt (mirrorPair s₀ s₁) 0 pairEntry 1).Sound ∧
      (mirrorsAt (mirrorPair s₀ s₁) 0 pairEntry 1).generation = u64At s₁.byteAt 0x48 := by
  rw [sound_mirrorsAt, sound_mirrorsAt, generation_mirrorsAt (pair_shown.mpr (by decide)),
    generation_mirrorsAt (pair_shown.mpr (by decide)), pairEntry_start, pair_super.1, pair_super.2]
  exact ⟨⟨⟨pair_shown.mpr (by decide), valid₀⟩, rfl⟩, ⟨pair_shown.mpr (by decide), valid₁⟩, rfl⟩

theorem pair_usable {x : Fin 3} (used : (mirrorsAt (mirrorPair s₀ s₁) 0 pairEntry x).usable = true) :
    x = 0 ∨ x = 1 := by
  have all : ∀ x : Fin 3, x ≠ 2 → x = 0 ∨ x = 1 := by decide
  exact all x (pair_shown.mp (usable_mirrorsAt.mp used).1)

theorem pair_clear {x : Fin 3} (used : (mirrorsAt (mirrorPair s₀ s₁) 0 pairEntry x).usable = true) {j : Nat}
    (less : j < 8) : mirrorAddr 0 pairEntry.lbaStart x j ≠ (0, 0) := by
  have offsets : ∀ x : Fin 3, x = 0 ∨ x = 1 → (mirrorOffset x).toNat / 512 ≤ 131072 := by decide
  have offset := offsets x (pair_usable used)
  have start : (2048 : UInt32).toNat = 2048 := rfl
  rw [pairEntry_start, mirrorAddr_eq 0 2048 x less]
  intro same
  have zero := congrArg Prod.snd same
  dsimp only at zero
  omega

end Pair

theorem image_valid :
    superValidAt (imageSuper 0 1 0 fun _ => 0) (mirrorOffset 0) = true ∧
      superValidAt (imageSuper 1 1 0 fun _ => 0) (mirrorOffset 1) = true :=
  ⟨superValidAt_sealed (by decide) (by decide) (by decide) (by decide),
    superValidAt_sealed (by decide) (by decide) (by decide) (by decide)⟩

/-- Two equal mirrors. -/
def twoMirrors : World := mirrorPair (imageSuper 0 1 0 fun _ => 0) (imageSuper 1 1 0 fun _ => 0)

theorem twoMirrors_selects : ∃ i, select (mirrorsAt twoMirrors 0 pairEntry) = some i ∧
    btrfsProbePartition twoMirrors (probeStart 0 pairEntry (mirrorsAt twoMirrors 0 pairEntry)) 0 0 =
      (selectedState twoMirrors 0 pairEntry i, true) := by
  obtain ⟨⟨sound, -⟩, -⟩ := pair_sound image_valid.1 image_valid.2
  obtain ⟨i, selected⟩ := select_isSome sound.acceptable
  have probed := probe_eq (probeStart 0 pairEntry (mirrorsAt twoMirrors 0 pairEntry))
    (show Table twoMirrors 0 0 pairEntry from pair_table)
  have chosen : select (mirrorsAt twoMirrors 0 pairEntry) = some i := selected
  rw [chosen] at probed
  exact ⟨i, chosen, probed⟩

theorem label_crash_safe_two : ∃ st, btrfsProbePartition twoMirrors
      (probeStart 0 pairEntry (mirrorsAt twoMirrors 0 pairEntry)) 0 0 = (st, true) ∧
    ∃ writes, (btrfsLabelSet (fun _ => true) twoMirrors (btrfsSetWriteEnabled st true).1 [0x78]).1 =
      wrote twoMirrors writes ∧
      AllCuts (fun disk => ∀ st₁, ∃ st₂,
        btrfsProbePartition { twoMirrors with disk := disk } st₁ 0 0 = (st₂, true) ∧
        (∃ i, st₂.selectedMirror = some i ∧ (st₂.mirrors i).csumOk = true) ∧
        (st₂.label = st.label ∨ st₂.label = [0x78])) twoMirrors.disk writes := by
  obtain ⟨i, -, probed⟩ := twoMirrors_selects
  obtain ⟨⟨sound₀, generation₀⟩, sound₁, generation₁⟩ := pair_sound image_valid.1 image_valid.2
  have generation : ∀ x, (mirrorsAt twoMirrors 0 pairEntry x).Sound →
      (mirrorsAt twoMirrors 0 pairEntry x).generation = 1 := by
    intro x sound
    obtain rfl | rfl := pair_usable (usable_of_csum sound.csum)
    · exact generation₀.trans (by decide)
    · exact generation₁.trans (by decide)
  refine ⟨_, probed, label_crash_safe probed ?_ ?_ (by decide) (fun x used => ?_) (fun x used j less => ?_) _⟩
  · rw [selectedState_mirrors]
    exact ⟨0, 1, by decide, sound₀, sound₁⟩
  · rw [selectedState_mirrors]
    exact fun x y sound sound' => (generation x sound).trans (generation y sound').symm
  · rw [selectedState_mirrors] at used
    rw [selectedState_partLba, pairEntry_start]
    obtain rfl | rfl := pair_usable used
    · rw [show superAt twoMirrors.disk 0 2048 0 = _ from pair_super.1]
      exact tornDetected_image _ _ _ _ _
    · rw [show superAt twoMirrors.disk 0 2048 1 = _ from pair_super.2]
      exact tornDetected_image _ _ _ _ _
  · rw [selectedState_mirrors] at used
    rw [selectedState_partLba]
    exact pair_clear used less

/-! ### A mirror on the partition table -/

/-- A partition table with one partition of 805306368 sectors from sector `2^28` on. -/
def tableBytes : Nat → UInt8
  | 450 => 0x83
  | 457 => 0x10
  | 461 => 0x30
  | 510 => 0x55
  | 511 => 0xAA
  | _ => 0

/-- A sector of ones. -/
def erased : Sector := fun _ => 0xFF

/-- The third mirror is at sector `2^28 + 2^29`, which is sector 0 on the bus. -/
def tableMirror : World where
  drives := fun _ => ⟨true, 0x50000000, fun _ => false, fun _ => false⟩
  disk := fun at' =>
    if at'.2 < 8 then sector (imageSuper 2 1 0 tableBytes) at'.2
    else if 128 ≤ at'.2 ∧ at'.2 < 136 then sector (imageSuper 0 1 0 fun _ => 0) (at'.2 - 128)
    else erased
  issued := []
  catfs := Catfs.formatState 0 0 [] 0

def tableMirrorEntry : MbrEntry := (mbrRead tableMirror 0 mbrInitEmpty).1.entries 0

theorem tableMirrorEntry_start : tableMirrorEntry.lbaStart = 0x10000000 := by decide

theorem tableMirror_table : Table tableMirror 0 0 tableMirrorEntry :=
  ⟨by decide, ⟨0, rfl, rfl⟩, by decide, by decide, by decide⟩

theorem tableMirror_super :
    superAt tableMirror.disk 0 0x10000000 0 = imageSuper 0 1 0 (fun _ => 0) ∧
      superAt tableMirror.disk 0 0x10000000 2 = imageSuper 2 1 0 tableBytes := by
  have first : ((0x10000000 : UInt32).toNat + (mirrorOffset 0).toNat / 512) = 268435584 := by decide
  have third : ((0x10000000 : UInt32).toNat + (mirrorOffset 2).toNat / 512) = 805306368 := by decide
  refine ⟨superAt_of_sectors fun j less => ?_, superAt_of_sectors fun j less => ?_⟩
  · have place : (268435584 + j) % 2 ^ 28 = 128 + j := by omega
    rw [mirrorAddr_eq 0 0x10000000 0 less, first, place]
    unfold tableMirror
    dsimp only
    rw [if_neg (by omega), if_pos (by omega), Nat.add_sub_cancel_left]
  · have place : (805306368 + j) % 2 ^ 28 = j := by omega
    rw [mirrorAddr_eq 0 0x10000000 2 less, third, place]
    unfold tableMirror
    dsimp only
    rw [if_pos less]

theorem tableMirror_shown (x : Fin 3) : Shown tableMirror.drives 0 tableMirrorEntry x := by
  have size : tableMirrorEntry.sectorCount.toNat = 805306368 := by decide
  have start : tableMirrorEntry.lbaStart.toNat = 268435456 := by decide
  have offsets : ∀ x : Fin 3, (mirrorOffset x).toNat + 4096 ≤ 805306368 * 512 := by decide
  have inside := offsets x
  refine ⟨by rw [size]; exact inside, ?_, fun j _ => ⟨by decide, by decide, rfl, rfl⟩⟩
  unfold mirrorLba
  rw [start]
  omega

theorem tableMirror_sound {x : Fin 3} (other : x ≠ 1) :
    (mirrorsAt tableMirror 0 tableMirrorEntry x).Sound ∧
      (mirrorsAt tableMirror 0 tableMirrorEntry x).generation = 1 := by
  rw [sound_mirrorsAt, generation_mirrorsAt (tableMirror_shown x), tableMirrorEntry_start]
  obtain rfl | rfl : x = 0 ∨ x = 2 := by revert x; decide
  · rw [tableMirror_super.1]
    exact ⟨⟨tableMirror_shown 0, superValidAt_sealed (by decide) (by decide)
      (by decide) (by decide)⟩, by decide⟩
  · rw [tableMirror_super.2]
    exact ⟨⟨tableMirror_shown 2, superValidAt_sealed (by decide) (by decide)
      (by decide) (by decide)⟩, by decide⟩

/-- The second mirror has no checksum of a known kind. -/
theorem tableMirror_unusable : (mirrorsAt tableMirror 0 tableMirrorEntry 1).usable = false := by
  rw [Bool.eq_false_iff]
  intro used
  have csum := (usable_mirrorsAt.mp used).2
  rw [tableMirrorEntry_start] at csum
  unfold csumOk at csum
  rw [decide_eq_true_iff] at csum
  exact absurd csum.1 (by decide)

theorem sector_first {s : Super} {k : Nat} (inside : k < 512) :
    (sector s 0).byteAt k = s.byteAt k := by
  simp only [Block.byteAt, sector, dif_pos inside, Nat.zero_mul, Nat.zero_add]

/-- The new label is written over the table, and the partition is gone. -/
theorem label_over_table : ∃ st, btrfsProbePartition tableMirror
      (probeStart 0 tableMirrorEntry (mirrorsAt tableMirror 0 tableMirrorEntry)) 0 0 = (st, true) ∧
    (∃ i j, i ≠ j ∧ (st.mirrors i).Sound ∧ (st.mirrors j).Sound) ∧
    (∀ i j, (st.mirrors i).Sound → (st.mirrors j).Sound →
      (st.mirrors i).generation = (st.mirrors j).generation) ∧
    labelOk [0x78] = true ∧
    (∀ i, (st.mirrors i).usable = true →
      TornDetected (superAt tableMirror.disk 0 st.partLba i)
        (relabel (superAt tableMirror.disk 0 st.partLba i) (st.generation + 1) [0x78])) ∧
    ∃ writes, (btrfsLabelSet (fun _ => true) tableMirror (btrfsSetWriteEnabled st true).1 [0x78]).1 =
      wrote tableMirror writes ∧
      ¬AllCuts (fun disk => ∀ st₁, ∃ st₂,
        btrfsProbePartition { tableMirror with disk := disk } st₁ 0 0 = (st₂, true)) tableMirror.disk writes := by
  have usable : ∀ x, (mirrorsAt tableMirror 0 tableMirrorEntry x).usable = true → x ≠ 1 := by
    rintro x used rfl
    rw [tableMirror_unusable] at used
    cases used
  have sound : ∀ x, (mirrorsAt tableMirror 0 tableMirrorEntry x).usable = true →
      (mirrorsAt tableMirror 0 tableMirrorEntry x).Sound := fun x used => (tableMirror_sound (usable x used)).1
  have sound_ne : ∀ x, (mirrorsAt tableMirror 0 tableMirrorEntry x).Sound → x ≠ 1 := fun x sound =>
    usable x (usable_of_csum sound.csum)
  obtain ⟨i, selected⟩ := select_isSome (tableMirror_sound (x := 0) (by decide)).1.acceptable
  have trusted := trusted_of_sound selected (tableMirror_sound (x := 0) (by decide)).1
  have probed := probe_eq (probeStart 0 tableMirrorEntry (mirrorsAt tableMirror 0 tableMirrorEntry))
    tableMirror_table
  rw [selected] at probed
  have ok : labelOk [0x78] = true := by decide
  have writable : ∀ lba, diskWritable tableMirror.drives 0 lba = true := fun _ => rfl
  obtain ⟨writes, after, -, all⟩ := labelSet_writes (fun _ => true) [0x78]
    (show selectedState tableMirror 0 tableMirrorEntry i = selectedState tableMirror 0 tableMirrorEntry i from rfl)
  have full := (all (labelSet_ok selected trusted sound writable ok)).2
  rw [selectedState_mirrors] at full
  refine ⟨_, probed, ?_, ?_, ok, ?_, writes, after, ?_⟩
  · rw [selectedState_mirrors]
    exact ⟨0, 2, by decide, (tableMirror_sound (by decide)).1, (tableMirror_sound (by decide)).1⟩
  · rw [selectedState_mirrors]
    intro x y sound sound'
    exact (tableMirror_sound (sound_ne x sound)).2.trans (tableMirror_sound (sound_ne y sound')).2.symm
  · rw [selectedState_mirrors, selectedState_partLba, tableMirrorEntry_start]
    intro x used
    have cases : ∀ x : Fin 3, x ≠ 1 → x = 0 ∨ x = 2 := by decide
    obtain rfl | rfl := cases x (usable x used)
    · rw [tableMirror_super.1]
      exact tornDetected_image _ _ _ _ _
    · rw [tableMirror_super.2]
      exact tornDetected_image _ _ _ _ _
  · intro cuts
    obtain ⟨st₂, found⟩ := cuts 1 (probeStart 0 tableMirrorEntry (mirrorsAt tableMirror 0 tableMirrorEntry))
    obtain ⟨e, table⟩ := table_of_probe found
    have first : writes.take 1 = [(((0 : Int), 0), sector
        (relabel (imageSuper 2 1 0 tableBytes) ((selectedState tableMirror 0 tableMirrorEntry i).generation + 1)
          [0x78]) 0)] := by
      have used : (mirrorsAt tableMirror 0 tableMirrorEntry 2).usable = true :=
        usable_of_csum (tableMirror_sound (by decide)).1.csum
      have place : mirrorAddr 0 0x10000000 2 0 = ((0 : Int), 0) := by decide
      rw [full, written, writeOrder, List.filter_cons, if_pos used, List.flatMap_cons, mirrorWrites,
        row_cons, tableMirrorEntry_start, tableMirror_super.2, place]
      rfl
    rw [first] at table
    have accepted := table.accepted
    unfold mbrRead at accepted
    rw [diskReadSector_eq, if_pos ⟨by decide, by decide, rfl, rfl⟩] at accepted
    have sectorZero : applyWrites tableMirror.disk [(((0 : Int), 0), sector
        (relabel (imageSuper 2 1 0 tableBytes) ((selectedState tableMirror 0 tableMirrorEntry i).generation + 1)
          [0x78]) 0)] (0, lba28 0) = sector (relabel (imageSuper 2 1 0 tableBytes)
            ((selectedState tableMirror 0 tableMirrorEntry i).generation + 1) [0x78]) 0 := by
      rw [applyWrites_cons, applyWrites_nil]
      exact Function.update_self _ _ _
    have gone : (relabel (imageSuper 2 1 0 tableBytes)
        ((selectedState tableMirror 0 tableMirrorEntry i).generation + 1) [0x78]).byteAt 510 = 0 := by
      rw [relabel_byteAt (by decide) (by decide) (by decide)]
      rfl
    dsimp only at accepted
    rw [sectorZero] at accepted
    rw [sector_first (show 510 < 512 by decide), gone] at accepted
    cases accepted

end AtmKoala.Btrfs
