import AtmKoala.Btrfs.Crash

/-!
What a new label leaves of the file system.

Every trusted mirror is rewritten from its own contents, all with the same new generation, so
that the lowest of them is selected afterwards (`fresh_selection`), and not the one that was
selected before. `preserved_iff` says when nothing but checksum area, generation, label and
the number of the mirror differs.
-/

namespace AtmKoala.Btrfs

open Lib Partmgr
open Catfs (World)

/-- The lowest of the mirrors that can be trusted. -/
def Lowest (st : BtrfsState) (l : Fin 3) : Prop :=
  (st.mirrors l).usable = true ∧ ∀ x, (st.mirrors x).usable = true → l ≤ x

/-- **What is selected after an update**: the lowest trusted mirror, with its own old contents. -/
theorem fresh_selection {w : World} {st₀ st : BtrfsState} {drive part : Int} {label : Bytes}
    {flush : Fin 3 → Bool} (probed : btrfsProbePartition w st₀ drive part = (st, true))
    (clear : ∀ i, (st.mirrors i).usable = true → ∀ j, j < 8 →
      mirrorAddr drive st.partLba i j ≠ (drive, 0))
    (success : (btrfsLabelSet flush w (btrfsSetWriteEnabled st true).1 label).2.2 = .ok ())
    (st₁ : BtrfsState) :
    ∃ st₂ l, btrfsProbePartition (btrfsLabelSet flush w (btrfsSetWriteEnabled st true).1 label).1
        st₁ drive part = (st₂, true) ∧ st₂.selectedMirror = some l ∧ Lowest st l ∧
      superAt (btrfsLabelSet flush w (btrfsSetWriteEnabled st true).1 label).1.disk drive st.partLba l =
        relabel (superAt w.disk drive st.partLba l) (st.generation + 1) label ∧ label.length ≤ 255 := by
  classical
  obtain ⟨e, i, table, selected, state⟩ := probe_some probed
  obtain ⟨writes, after, -, all⟩ := labelSet_writes flush label state
  obtain ⟨⟨ok, trusted, passed⟩, full⟩ := all success
  obtain ⟨sameMirrors, sameDrive, sameStart, -, sameTrust⟩ := setWriteEnabled_same st true
  have startEq : st.partLba = e.lbaStart := by rw [state]; rfl
  have mirrorsEq : st.mirrors = mirrorsAt w drive e := by rw [state]; rfl
  have short := labelOk_length ok
  have valid : ∀ x, (mirrorsAt w drive e x).usable = true →
      Shown w.drives drive e x ∧ superValidAt (superAt w.disk drive e.lbaStart x) (mirrorOffset x) = true := by
    intro x used
    have shown := (usable_mirrorsAt.mp used).1
    have inOrder : x ∈ readOrder := by
      have mem : ∀ x, x ∈ readOrder := by decide
      exact mem x
    obtain ⟨s, read, good⟩ := valid_of_preflight passed inOrder (by rw [sameMirrors, mirrorsEq]; exact used)
    have driveEq : st.drive = drive := by rw [state]; rfl
    rw [sameDrive, sameStart, driveEq, startEq, readSuper_eq, if_pos shown.2] at read
    obtain rfl := Option.some.inj read
    rw [sameMirrors, mirrorsEq] at good
    have offset : (mirrorsAt w drive e x).offset = mirrorOffset x := by
      rw [mirrorsAt_eq, mirrorsOf_shown shown]
      rfl
    rw [offset] at good
    exact ⟨shown, good⟩
  rw [startEq] at clear
  rw [mirrorsEq] at full clear
  rw [after, startEq]
  obtain ⟨w', world⟩ : ∃ w', w' = wrote w writes := ⟨_, rfl⟩
  have drives : w'.drives = w.drives := by rw [world]; rfl
  have disk : w'.disk = applyWrites w.disk writes := by rw [world]; rfl
  have now : ∀ x, superAt w'.disk drive e.lbaStart x =
      if (mirrorsAt w drive e x).usable = true then
        relabel (superAt w.disk drive e.lbaStart x) (st.generation + 1) label
      else superAt w.disk drive e.lbaStart x := by
    intro x
    rw [disk, full, superAt_done]
    simp only [mem_written]
  have table' : Table w' drive part e := by
    refine table.of_sector drives ?_
    rw [disk, full]
    refine applyWrites_of_forall_ne fun v mem => ?_
    obtain ⟨x, used, inRow⟩ := List.mem_flatMap.mp mem
    obtain ⟨j, less, rfl⟩ := List.mem_map.mp inRow
    exact clear x (mem_written.mp used) j (List.mem_range.mp less)
  -- all trusted mirrors have a right checksum and the new generation
  have renewed : ∀ x, (mirrorsAt w drive e x).usable = true →
      (mirrorsAt w' drive e x).Sound ∧ (mirrorsAt w' drive e x).generation = st.generation + 1 := by
    intro x used
    obtain ⟨shown, good⟩ := valid x used
    have shown' : Shown w'.drives drive e x := by rwa [drives]
    rw [sound_mirrorsAt, generation_mirrorsAt shown', now, if_pos used]
    exact ⟨⟨shown', relabel_valid short good⟩, relabel_generation short⟩
  have usedI : (mirrorsAt w drive e i).usable = true := by
    rw [sameTrust, state] at trusted
    exact usable_of_csum trusted
  obtain ⟨l, chosen⟩ := select_isSome (renewed i usedI).1.acceptable
  obtain ⟨-, -, first⟩ := select_spec chosen
  have csum := trusted_of_sound chosen (renewed i usedI).1
  have usedL : (mirrorsAt w drive e l).usable = true := by
    by_contra unused
    have here := usable_mirrorsAt.mp (usable_of_csum csum)
    rw [now, if_neg unused, drives] at here
    exact unused (usable_mirrorsAt.mpr here)
  refine ⟨selectedState w' drive e l, l, ?_, rfl, ⟨by rw [mirrorsEq]; exact usedL, fun x used => ?_⟩, ?_, short⟩
  · rw [← world, probe_eq st₁ table', chosen]
  · rw [mirrorsEq] at used
    refine first x (renewed x used).1.acceptable (le_of_eq ?_)
    unfold Mirror.rank
    rw [(renewed l usedL).1.csum, (renewed x used).1.csum, (renewed l usedL).2, (renewed x used).2]
  · rw [← world, now, if_pos usedL]

/-- The fresh selection differs from the selection before in the bytes that an update changes
and, if another mirror is selected, in the number of the mirror. -/
def Preserved (w w' : World) (st : BtrfsState) (drive part : Int) : Prop :=
  ∀ st₁, ∃ st₂ i l, btrfsProbePartition w' st₁ drive part = (st₂, true) ∧
    st.selectedMirror = some i ∧ st₂.selectedMirror = some l ∧
    ∀ k, k < 4096 → ¬Changing k → ¬(l ≠ i ∧ 0x30 ≤ k ∧ k < 0x38) →
      (superAt w'.disk drive st.partLba l).byteAt k = (superAt w.disk drive st.partLba i).byteAt k

/-- The lowest trusted mirror has the contents of the selected one. -/
def LowestAgrees (w : World) (st : BtrfsState) (drive : Int) : Prop :=
  ∀ i l, st.selectedMirror = some i → Lowest st l →
    ∀ k, k < 4096 → ¬Changing k → ¬(0x30 ≤ k ∧ k < 0x38) →
      (superAt w.disk drive st.partLba l).byteAt k = (superAt w.disk drive st.partLba i).byteAt k

/-- **When the file system is preserved**: when the lowest trusted mirror agreed with the
selected one. -/
theorem preserved_iff {w : World} {st₀ st : BtrfsState} {drive part : Int} {label : Bytes}
    {flush : Fin 3 → Bool} (probed : btrfsProbePartition w st₀ drive part = (st, true))
    (clear : ∀ i, (st.mirrors i).usable = true → ∀ j, j < 8 →
      mirrorAddr drive st.partLba i j ≠ (drive, 0))
    (success : (btrfsLabelSet flush w (btrfsSetWriteEnabled st true).1 label).2.2 = .ok ()) :
    Preserved w (btrfsLabelSet flush w (btrfsSetWriteEnabled st true).1 label).1 st drive part ↔
      LowestAgrees w st drive := by
  constructor
  · intro preserved i l selected lowest k less outside number
    obtain ⟨st₂, l', probed', chosen, lowest', contents, short⟩ := fresh_selection probed clear success st
    obtain ⟨st₃, i', l'', probed'', selected', chosen', bytes⟩ := preserved st
    obtain rfl : i' = i := Option.some.inj (selected'.symm.trans selected)
    obtain rfl : st₂ = st₃ := (Prod.mk.inj (probed'.symm.trans probed'')).1
    obtain rfl : l'' = l' := Option.some.inj (chosen'.symm.trans chosen)
    obtain rfl : l'' = l := le_antisymm (lowest'.2 l lowest.1) (lowest.2 l'' lowest'.1)
    have here := bytes k less outside fun h => number h.2
    rwa [contents, relabel_frame short outside less] at here
  · intro agrees st₁
    obtain ⟨st₂, l, probed', chosen, lowest, contents, short⟩ := fresh_selection probed clear success st₁
    obtain ⟨e, i, -, -, state⟩ := probe_some probed
    have selected : st.selectedMirror = some i := by rw [state]; rfl
    refine ⟨st₂, i, l, probed', selected, chosen, fun k less outside number => ?_⟩
    rw [contents, relabel_frame short outside less]
    by_cases this : l = i
    · rw [this]
    · exact agrees i l selected lowest k less outside fun h => number ⟨this, h⟩

theorem preserved_iff_two : ∃ st, btrfsProbePartition twoMirrors
      (probeStart 0 pairEntry (mirrorsAt twoMirrors 0 pairEntry)) 0 0 = (st, true) ∧
    (Preserved twoMirrors
      (btrfsLabelSet (fun _ => true) twoMirrors (btrfsSetWriteEnabled st true).1 [0x78]).1 st 0 0 ↔
        LowestAgrees twoMirrors st 0) := by
  obtain ⟨i, selected, probed⟩ := twoMirrors_selects
  obtain ⟨⟨sound₀, -⟩, sound₁, -⟩ := pair_sound image_valid.1 image_valid.2
  have sound : ∀ x, (mirrorsAt twoMirrors 0 pairEntry x).usable = true →
      (mirrorsAt twoMirrors 0 pairEntry x).Sound := by
    intro x used
    obtain rfl | rfl := pair_usable used
    · exact sound₀
    · exact sound₁
  refine ⟨_, probed, preserved_iff probed (fun x used j less => ?_)
    (labelSet_ok selected (trusted_of_sound selected sound₀) sound (fun _ => rfl) (by decide))⟩
  rw [selectedState_mirrors] at used
  rw [selectedState_partLba]
  exact pair_clear used less

/-- A lower mirror that was left behind, and the one that is selected. -/
def staleMirror : World := mirrorPair (imageSuper 0 1 0 fun _ => 0) (imageSuper 1 2 7 fun _ => 0)

/-- The stale mirror is selected after the update: the used bytes go from 7 to 0. -/
theorem stale_mirror_wins : ∃ st, btrfsProbePartition staleMirror
      (probeStart 0 pairEntry (mirrorsAt staleMirror 0 pairEntry)) 0 0 = (st, true) ∧
    (∀ i, (st.mirrors i).usable = true → (st.mirrors i).Sound) ∧
    (btrfsLabelSet (fun _ => true) staleMirror (btrfsSetWriteEnabled st true).1 [0x78]).2.2 = .ok () ∧
    ¬Preserved staleMirror
      (btrfsLabelSet (fun _ => true) staleMirror (btrfsSetWriteEnabled st true).1 [0x78]).1 st 0 0 := by
  have valid₁ : superValidAt (imageSuper 1 2 7 fun _ => 0) (mirrorOffset 1) = true :=
    superValidAt_sealed (by decide) (by decide) (by decide) (by decide)
  obtain ⟨⟨sound₀, generation₀⟩, sound₁, generation₁⟩ := pair_sound image_valid.1 valid₁
  have sound : ∀ x, (mirrorsAt staleMirror 0 pairEntry x).usable = true →
      (mirrorsAt staleMirror 0 pairEntry x).Sound := by
    intro x used
    obtain rfl | rfl := pair_usable used
    · exact sound₀
    · exact sound₁
  obtain ⟨i, selected⟩ := select_isSome sound₁.acceptable
  have chosen : select (mirrorsAt staleMirror 0 pairEntry) = some i := selected
  have trusted := trusted_of_sound chosen sound₁
  -- the higher generation is selected before
  obtain rfl : i = 1 := by
    obtain rfl | rfl := pair_usable (usable_of_csum trusted)
    · have most := (select_spec chosen).2.1 1 sound₁.acceptable
      have old : (mirrorsAt staleMirror 0 pairEntry 0).generation = 1 := generation₀.trans (by decide)
      have new : (mirrorsAt staleMirror 0 pairEntry 1).generation = 2 := generation₁.trans (by decide)
      have csum₀ : (mirrorsAt staleMirror 0 pairEntry 0).csumOk = true := sound₀.csum
      have csum₁ : (mirrorsAt staleMirror 0 pairEntry 1).csumOk = true := sound₁.csum
      rw [Mirror.rank_of_csum csum₀, Mirror.rank_of_csum csum₁, old, new] at most
      exact absurd most (by decide)
    · rfl
  have probed := probe_eq (probeStart 0 pairEntry (mirrorsAt staleMirror 0 pairEntry))
    (show Table staleMirror 0 0 pairEntry from pair_table)
  rw [chosen] at probed
  have success := labelSet_ok chosen trusted sound (fun _ => rfl) (show labelOk [0x78] = true by decide)
  refine ⟨_, probed, by rw [selectedState_mirrors]; exact sound, success, fun preserved => ?_⟩
  have clear : ∀ x, ((selectedState staleMirror 0 pairEntry 1).mirrors x).usable = true → ∀ j, j < 8 →
      mirrorAddr 0 (selectedState staleMirror 0 pairEntry 1).partLba x j ≠ (0, 0) := by
    rw [selectedState_mirrors, selectedState_partLba]
    exact fun x used j less => pair_clear used less
  obtain ⟨st₂, l, again, after, lowest, contents, short⟩ :=
    fresh_selection probed clear success (selectedState staleMirror 0 pairEntry 1)
  obtain ⟨st₃, i, l', again', selected', after', bytes⟩ := preserved (selectedState staleMirror 0 pairEntry 1)
  obtain rfl : st₂ = st₃ := (Prod.mk.inj (again.symm.trans again')).1
  obtain rfl : l = l' := Option.some.inj (after.symm.trans after')
  obtain rfl : i = 1 := Option.some.inj selected'.symm
  have used : ((selectedState staleMirror 0 pairEntry 1).mirrors 0).usable = true := by
    rw [selectedState_mirrors]
    exact usable_of_csum sound₀.csum
  obtain rfl : l = 0 := Fin.le_zero_iff.mp (lowest.2 0 used)
  have here := bytes 0x78 (by decide) (by unfold Changing; omega) (by omega)
  rw [contents, relabel_frame short (by unfold Changing; omega) (by decide), selectedState_partLba,
    pairEntry_start, show superAt staleMirror.disk 0 2048 0 = _ from pair_super.1,
    show superAt staleMirror.disk 0 2048 1 = _ from pair_super.2] at here
  exact absurd here (by decide)

end AtmKoala.Btrfs
