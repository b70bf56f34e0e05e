import AtmKoala.Btrfs.Commit

/-!
What setting a label does.

* `labelSet_writes`: it writes the mirrors that can be trusted, from the highest to the lowest,
  and all of them if it succeeds.
* `labelSet_ok`: it succeeds on a drive that answers.
-/

namespace AtmKoala.Btrfs

open Lib Partmgr
open Catfs (World)

/-! ### The writes of an update -/

/-- The world after some writes. -/
def wrote (w : World) (ws : List ((Int × Nat) × Sector)) : World :=
  { w with disk := applyWrites w.disk ws, issued := w.issued ++ ws }

theorem wrote_nil (w : World) : wrote w [] = w := by
  unfold wrote
  rw [applyWrites_nil, List.append_nil]

theorem wrote_append (w : World) (ws vs : List ((Int × Nat) × Sector)) :
    wrote (wrote w ws) vs = wrote w (ws ++ vs) := by
  unfold wrote
  rw [applyWrites_append, List.append_assoc]

/-- `disk_write` stops at the first sector that is refused. -/
theorem diskWrite_spec (drive : Int) (s : Super) (w : World) (lba : UInt32) (j n : Nat) :
    ∃ m, (diskWrite drive s w lba j n).1 =
        wrote w ((row (fun t => (drive, lba28 (lba + UInt32.ofNat t))) (fun t => sector s (j + t)) n).take m) ∧
      ((diskWrite drive s w lba j n).2 = true → n ≤ m) := by
  induction n generalizing w lba j with
  | zero => exact ⟨0, (wrote_nil w).symm, fun _ => Nat.le_refl 0⟩
  | succ n ih =>
    unfold diskWrite
    by_cases accepted : diskWritable w.drives drive lba = true
    · rw [if_pos accepted]
      obtain ⟨m, after, done⟩ := ih
        { w with
          disk := Function.update w.disk (drive, lba28 lba) (sector s j)
          issued := w.issued ++ [((drive, lba28 lba), sector s j)] } (lba + 1) (j + 1)
      refine ⟨m + 1, ?_, fun all => Nat.succ_le_succ (done all)⟩
      rw [after, row_cons, List.take_succ_cons]
      have first : lba + UInt32.ofNat 0 = lba := by simp
      have rest : (fun t => ((drive, lba28 (lba + UInt32.ofNat (t + 1))) : Int × Nat)) =
          fun t => (drive, lba28 (lba + 1 + UInt32.ofNat t)) := funext fun t => by rw [add_ofNat_succ]
      have sectors : (fun t => sector s (j + (t + 1))) = fun t => sector s (j + 1 + t) :=
        funext fun t => by rw [Nat.add_assoc j 1, Nat.add_comm 1]
      rw [first, rest, sectors]
      show wrote (wrote w [((drive, lba28 lba), sector s j)]) _ = _
      rw [wrote_append]
      rfl
    · rw [if_neg accepted]
      exact ⟨0, (wrote_nil w).symm, fun done => nomatch done⟩

theorem writeSuper_spec (flush : Bool) (w : World) (drive : Int) (partLba : UInt32) (i : Fin 3) (s : Super) :
    ∃ m, (writeSuper flush w drive partLba i s).1 = wrote w ((mirrorWrites drive partLba i s).take m) ∧
      ((writeSuper flush w drive partLba i s).2 = true → 8 ≤ m) := by
  unfold writeSuper
  split
  · exact ⟨0, (wrote_nil w).symm, fun done => nomatch done⟩
  · obtain ⟨m, after, done⟩ := diskWrite_spec drive s w (UInt32.ofNat (mirrorLba partLba i)) 0 8
    refine ⟨m, ?_, fun all => done ?_⟩
    · simp only [Nat.zero_add] at after
      exact after
    · dsimp only at all
      rw [Bool.and_eq_true] at all
      exact all.1

/-- All writes of a transaction. -/
def transactionWrites (st : BtrfsState) (tx : Fin 3 → Option Super) (order : List (Fin 3)) :
    List ((Int × Nat) × Sector) :=
  order.flatMap fun i =>
    match tx i with
    | none => []
    | some s => mirrorWrites st.drive st.partLba i s

theorem writeMirrors_spec (flush : Fin 3 → Bool) (st : BtrfsState) (tx : Fin 3 → Option Super) (w : World)
    (order : List (Fin 3)) :
    ∃ k, (writeMirrors flush st tx w order).1 = wrote w ((transactionWrites st tx order).take k) ∧
      ((writeMirrors flush st tx w order).2 = .ok () →
        (writeMirrors flush st tx w order).1 = wrote w (transactionWrites st tx order)) := by
  induction order generalizing w with
  | nil => exact ⟨0, (wrote_nil w).symm, fun _ => (wrote_nil w).symm⟩
  | cons i order ih =>
    unfold writeMirrors transactionWrites
    rw [List.flatMap_cons]
    cases tx i with
    | none => exact ih w
    | some s =>
      obtain ⟨m, after, done⟩ := writeSuper_spec (flush i) w st.drive st.partLba i s
      dsimp only
      by_cases all : (writeSuper (flush i) w st.drive st.partLba i s).2 = true
      · rw [if_pos all]
        have whole : (mirrorWrites st.drive st.partLba i s).take m = mirrorWrites st.drive st.partLba i s :=
          List.take_of_length_le (by simp [mirrorWrites, row]; exact done all)
        rw [whole] at after
        obtain ⟨k, then', finish⟩ := ih (wrote w (mirrorWrites st.drive st.partLba i s))
        rw [after]
        refine ⟨(mirrorWrites st.drive st.partLba i s).length + k, ?_, fun ok => ?_⟩
        · rw [then', wrote_append, List.take_length_add_append]
          rfl
        · rw [finish ok, wrote_append]
          rfl
      · rw [if_neg all]
        refine ⟨min m (mirrorWrites st.drive st.partLba i s).length, ?_, by rintro ⟨⟩⟩
        rw [after, List.take_append_of_le_length (Nat.min_le_right _ _)]
        congr 1
        rw [← List.take_take, List.take_length]

/-- The writes go to the mirrors that can be trusted. -/
theorem transactionWrites_eq {w : World} {st : BtrfsState} {label : Bytes}
    (read : ∀ i, (st.mirrors i).usable = true →
      readSuper w st.drive st.partLba i = some (superAt w.disk st.drive st.partLba i))
    (order : List (Fin 3)) :
    transactionWrites st (transaction w st label) order =
      (order.filter fun i => (st.mirrors i).usable).flatMap fun i =>
        mirrorWrites st.drive st.partLba i
          (relabel (superAt w.disk st.drive st.partLba i) (st.generation + 1) label) := by
  induction order with
  | nil => rfl
  | cons i order ih =>
    have rest := ih
    unfold transactionWrites at rest ⊢
    rw [List.flatMap_cons, rest]
    unfold transaction
    rw [List.filter_cons]
    cases used : (st.mirrors i).usable with
    | true =>
      rw [if_pos rfl, if_pos rfl, List.flatMap_cons, read i used]
      rfl
    | false => rfl

/-- What an update writes, and that success means all of it. -/
theorem labelSet_spec (flush : Fin 3 → Bool) (w : World) (st : BtrfsState) (label : Bytes) :
    ∃ writes, (btrfsLabelSet flush w st label).1 = wrote w writes ∧
      (writes = [] ∨ ∃ k, writes =
        (transactionWrites st (transaction w st label) writeOrder).take k) ∧
      ((btrfsLabelSet flush w st label).2.2 = .ok () →
        (labelOk label = true ∧ st.trusted = true ∧ preflight w st readOrder = .ok ()) ∧
          writes = transactionWrites st (transaction w st label) writeOrder) := by
  unfold btrfsLabelSet
  split
  · exact ⟨[], (wrote_nil w).symm, .inl rfl, fun ok => nomatch ok⟩
  · rename_i enabled
    simp only [not_or, Bool.not_eq_true', Bool.not_eq_false] at enabled
    split
    · exact ⟨[], (wrote_nil w).symm, .inl rfl, fun ok => nomatch ok⟩
    · rename_i passed
      split
      · exact ⟨[], (wrote_nil w).symm, .inl rfl, fun ok => nomatch ok⟩
      · obtain ⟨k, after, all⟩ := writeMirrors_spec flush st (transaction w st label) w writeOrder
        split
        · rename_i w' e failed
          rw [failed] at after
          exact ⟨_, after, .inr ⟨k, rfl⟩, fun ok => nomatch ok⟩
        · rename_i w' done
          rw [done] at all
          refine ⟨transactionWrites st (transaction w st label) writeOrder, ?_,
            .inr ⟨_, (List.take_length).symm⟩, fun _ => ⟨⟨enabled.2.2.2, enabled.2.2.1, passed⟩, rfl⟩⟩
          split
          · exact all rfl
          · exact all rfl

/-! ### Behind a probe -/

/-- The mirror lies in the partition and can be read. -/
def Shown (drives : Int → Drive) (drive : Int) (e : MbrEntry) (x : Fin 3) : Prop :=
  (mirrorOffset x).toNat + 4096 ≤ e.sectorCount.toNat * 512 ∧ Readable drives drive e.lbaStart x

section Probed

open Classical

variable {w : World} {drive part : Int} {e : MbrEntry}

theorem found_eq (w : World) (drive : Int) (e : MbrEntry) (x : Fin 3) :
    found w drive e x =
      if Shown w.drives drive e x then some (superAt w.disk drive e.lbaStart x) else none := by
  unfold found Shown
  rw [readSuper_eq]
  by_cases inside : (mirrorOffset x).toNat + 4096 ≤ e.sectorCount.toNat * 512
  · rw [if_neg (by omega)]
    by_cases readable : Readable w.drives drive e.lbaStart x
    · rw [if_pos readable, if_pos ⟨inside, readable⟩]
    · rw [if_neg readable, if_neg fun h => readable h.2]
  · rw [if_pos (by omega), if_neg fun h => inside h.1]

theorem mirrorsAt_eq (w : World) (drive : Int) (e : MbrEntry) :
    mirrorsAt w drive e = mirrorsOf (Shown w.drives drive e) (superAt w.disk drive e.lbaStart) := by
  funext x
  unfold mirrorsAt mirrorsOf
  rw [found_eq]

theorem usable_iff {shown : Fin 3 → Prop} {v : Fin 3 → Super} {x : Fin 3} :
    (mirrorsOf shown v x).usable = true ↔ shown x ∧ csumOk (v x) = true := by
  rw [← mirrorsOf_csum]
  unfold Mirror.usable
  rw [Bool.and_eq_true]
  refine ⟨fun h => h.2, fun csum => ⟨?_, csum⟩⟩
  rw [mirrorsOf_shown (mirrorsOf_csum.mp csum).1]
  rfl

/-- A successful probe, taken apart. -/
theorem probe_some {st st' : BtrfsState} (probed : btrfsProbePartition w st drive part = (st', true)) :
    ∃ e i, Table w drive part e ∧ select (mirrorsAt w drive e) = some i ∧ st' = selectedState w drive e i := by
  obtain ⟨e, table⟩ := table_of_probe probed
  rw [probe_eq st table] at probed
  cases selected : select (mirrorsAt w drive e) with
  | none =>
    rw [selected] at probed
    cases probed
  | some i =>
    rw [selected] at probed
    exact ⟨e, i, table, selected, (Prod.mk.inj probed).1.symm⟩

/-- What has been selected can be read. -/
theorem selectedState_label {i : Fin 3} (selected : select (mirrorsAt w drive e) = some i) :
    (selectedState w drive e i).label = labelCopy (superAt w.disk drive e.lbaStart i) ∧
      (selectedState w drive e i).generation = u64At (superAt w.disk drive e.lbaStart i).byteAt 0x48 := by
  have present := Mirror.acceptable_present (select_spec selected).1
  have shown : Shown w.drives drive e i := by
    by_contra hidden
    unfold mirrorsAt at present
    rw [found_eq, if_neg hidden] at present
    cases present
  unfold selectedState copySelected
  rw [found_eq, if_pos shown]
  exact ⟨rfl, rfl⟩

theorem selectedState_mirrors (w : World) (drive : Int) (e : MbrEntry) (i : Fin 3) :
    (selectedState w drive e i).mirrors = mirrorsAt w drive e := rfl

theorem selectedState_partLba (w : World) (drive : Int) (e : MbrEntry) (i : Fin 3) :
    (selectedState w drive e i).partLba = e.lbaStart := rfl

end Probed

theorem setWriteEnabled_same (st : BtrfsState) (enabled : Bool) :
    (btrfsSetWriteEnabled st enabled).1.mirrors = st.mirrors ∧
      (btrfsSetWriteEnabled st enabled).1.drive = st.drive ∧
      (btrfsSetWriteEnabled st enabled).1.partLba = st.partLba ∧
      (btrfsSetWriteEnabled st enabled).1.generation = st.generation ∧
      (btrfsSetWriteEnabled st enabled).1.trusted = st.trusted := by
  unfold btrfsSetWriteEnabled
  split
  · exact ⟨rfl, rfl, rfl, rfl, rfl⟩
  · split
    · exact ⟨rfl, rfl, rfl, rfl, rfl⟩
    · exact ⟨rfl, rfl, rfl, rfl, rfl⟩

/-- The writes of an update behind a probe: some of those to the mirrors that can be trusted,
and all of them if it succeeds. -/
theorem labelSet_writes {w : World} {st : BtrfsState} {drive : Int} {e : MbrEntry} {i : Fin 3}
    (flush : Fin 3 → Bool) (label : Bytes) (state : st = selectedState w drive e i) :
    ∃ writes, (btrfsLabelSet flush w (btrfsSetWriteEnabled st true).1 label).1 = wrote w writes ∧
      (∃ k, writes = ((written fun x => (st.mirrors x).usable).flatMap fun x =>
        mirrorWrites drive e.lbaStart x
          (relabel (superAt w.disk drive e.lbaStart x) (st.generation + 1) label)).take k) ∧
      ((btrfsLabelSet flush w (btrfsSetWriteEnabled st true).1 label).2.2 = .ok () →
        (labelOk label = true ∧ (btrfsSetWriteEnabled st true).1.trusted = true ∧
          preflight w (btrfsSetWriteEnabled st true).1 readOrder = .ok ()) ∧ writes = (written fun x => (st.mirrors x).usable).flatMap fun x =>
          mirrorWrites drive e.lbaStart x
            (relabel (superAt w.disk drive e.lbaStart x) (st.generation + 1) label)) := by
  classical
  obtain ⟨writes, after, part, all⟩ := labelSet_spec flush w (btrfsSetWriteEnabled st true).1 label
  obtain ⟨mirrors, onDrive, start, generation, -⟩ := setWriteEnabled_same st true
  have driveEq : st.drive = drive := by rw [state]; rfl
  have startEq : st.partLba = e.lbaStart := by rw [state]; rfl
  have mirrorsEq : st.mirrors = mirrorsAt w drive e := by rw [state]; rfl
  have read : ∀ x, ((btrfsSetWriteEnabled st true).1.mirrors x).usable = true →
      readSuper w (btrfsSetWriteEnabled st true).1.drive (btrfsSetWriteEnabled st true).1.partLba x =
        some (superAt w.disk (btrfsSetWriteEnabled st true).1.drive
          (btrfsSetWriteEnabled st true).1.partLba x) := by
    intro x used
    rw [mirrors, mirrorsEq, mirrorsAt_eq, usable_iff] at used
    rw [onDrive, start, driveEq, startEq, readSuper_eq, if_pos used.1.2]
  rw [transactionWrites_eq read, mirrors, onDrive, start, generation, driveEq, startEq] at part all
  refine ⟨writes, after, ?_, all⟩
  rcases part with none | ⟨k, some⟩
  · exact ⟨0, none⟩
  · exact ⟨k, some⟩

/-! ### Success -/

theorem diskWrite_ok {drive : Int} {s : Super} {w : World}
    (writable : ∀ lba, diskWritable w.drives drive lba = true) (lba : UInt32) (j n : Nat) :
    (diskWrite drive s w lba j n).2 = true := by
  induction n generalizing w lba j with
  | zero => rfl
  | succ n ih =>
    unfold diskWrite
    rw [if_pos (writable lba)]
    refine ih ?_ _ _
    exact writable

theorem writeMirrors_ok {flush : Fin 3 → Bool} {st : BtrfsState} {tx : Fin 3 → Option Super} {w : World}
    (flushed : ∀ i, flush i = true) (low : ∀ i s, tx i = some s → mirrorLba st.partLba i ≤ 0xFFFFFFFF)
    (writable : ∀ lba, diskWritable w.drives st.drive lba = true) (order : List (Fin 3)) :
    (writeMirrors flush st tx w order).2 = .ok () := by
  induction order generalizing w with
  | nil => rfl
  | cons i order ih =>
    unfold writeMirrors
    cases here : tx i with
    | none => exact ih writable
    | some s =>
      have done : (writeSuper (flush i) w st.drive st.partLba i s).2 = true := by
        unfold writeSuper
        rw [if_neg (Nat.not_lt.mpr (low i s here)), flushed]
        dsimp only
        rw [diskWrite_ok writable]
        rfl
      obtain ⟨m, after, -⟩ := writeSuper_spec (flush i) w st.drive st.partLba i s
      dsimp only
      rw [if_pos done, after]
      exact ih writable

theorem preflight_ok {w : World} {st : BtrfsState} {order : List (Fin 3)}
    (valid : ∀ i, (st.mirrors i).usable = true → ∃ s, readSuper w st.drive st.partLba i = some s ∧
      superValidAt s (st.mirrors i).offset = true) : preflight w st order = .ok () := by
  induction order with
  | nil => rfl
  | cons i order ih =>
    unfold preflight
    by_cases used : (st.mirrors i).usable = true
    · obtain ⟨s, read, good⟩ := valid i used
      rw [if_pos used, read]
      dsimp only
      rw [if_pos good]
      exact ih
    · rw [if_neg used]
      exact ih

/-- What the preflight has made sure of. -/
theorem valid_of_preflight {w : World} {st : BtrfsState} {order : List (Fin 3)}
    (passed : preflight w st order = .ok ()) {i : Fin 3} (mem : i ∈ order)
    (used : (st.mirrors i).usable = true) :
    ∃ s, readSuper w st.drive st.partLba i = some s ∧ superValidAt s (st.mirrors i).offset = true := by
  induction order with
  | nil => cases mem
  | cons x order ih =>
    unfold preflight at passed
    by_cases usedX : (st.mirrors x).usable = true
    · rw [if_pos usedX] at passed
      cases read : readSuper w st.drive st.partLba x with
      | none =>
        rw [read] at passed
        cases passed
      | some s =>
        rw [read] at passed
        dsimp only at passed
        split at passed
        · rename_i valid
          rcases List.mem_cons.mp mem with rfl | behind
          · exact ⟨s, read, valid⟩
          · exact ih passed behind
        · cases passed
    · rw [if_neg usedX] at passed
      rcases List.mem_cons.mp mem with rfl | behind
      · exact absurd used usedX
      · exact ih passed behind

/-- A mirror passes the check that follows the writes. -/
def Passes (w : World) (next : UInt64) (label : Bytes) (st : BtrfsState) (i : Fin 3) : Prop :=
  ∃ s, readSuper w st.drive st.partLba i = some s ∧ superValidAt s (st.mirrors i).offset = true ∧
    u64At s.byteAt 0x48 = next ∧ stringAt s 0x12B (4096 - 0x12B) = label

theorem updated_mirror (st : BtrfsState) (i x : Fin 3) (next : UInt64) :
    ((st.updated i next).mirrors x).usable = (st.mirrors x).usable ∧
      ((st.updated i next).mirrors x).offset = (st.mirrors x).offset := by
  show ((Function.update st.mirrors i _) x).usable = _ ∧ ((Function.update st.mirrors i _) x).offset = _
  by_cases here : x = i
  · rw [here, Function.update_self]
    exact ⟨rfl, rfl⟩
  · rw [Function.update_of_ne here]
    exact ⟨rfl, rfl⟩

theorem verify_ok {w : World} {next : UInt64} {label : Bytes} {st : BtrfsState} {order : List (Fin 3)}
    (passes : ∀ i, (st.mirrors i).usable = true → Passes w next label st i) :
    (verify w next label st order).2 = .ok () := by
  induction order generalizing st with
  | nil => rfl
  | cons i order ih =>
    unfold verify
    by_cases used : (st.mirrors i).usable = true
    · obtain ⟨s, read, valid, generation, string⟩ := passes i used
      rw [if_pos used, read]
      dsimp only
      rw [if_neg (by rw [valid]; decide), if_neg (not_not.mpr generation), if_neg (not_not.mpr string)]
      refine ih fun x used' => ?_
      obtain ⟨sameUse, sameOffset⟩ := updated_mirror st i x next
      rw [sameUse] at used'
      obtain ⟨t, read', valid', rest⟩ := passes x used'
      exact ⟨t, read', by rwa [sameOffset], rest⟩
    · rw [if_neg used]
      exact ih passes

section Success

open Classical

variable {w : World} {drive : Int} {e : MbrEntry} {i : Fin 3} {label : Bytes}

theorem usable_mirrorsAt {x : Fin 3} :
    (mirrorsAt w drive e x).usable = true ↔
      Shown w.drives drive e x ∧ csumOk (superAt w.disk drive e.lbaStart x) = true := by
  rw [mirrorsAt_eq]
  exact usable_iff

theorem sound_mirrorsAt {x : Fin 3} :
    (mirrorsAt w drive e x).Sound ↔ Shown w.drives drive e x ∧
      superValidAt (superAt w.disk drive e.lbaStart x) (mirrorOffset x) = true := by
  rw [mirrorsAt_eq]
  exact mirrorsOf_sound

theorem usable_of_csum {x : Fin 3} (csum : (mirrorsAt w drive e x).csumOk = true) :
    (mirrorsAt w drive e x).usable = true := by
  rw [usable_mirrorsAt, ← mirrorsOf_csum, ← mirrorsAt_eq]
  exact csum

/-- Where a mirror is sound, what is selected can be trusted. -/
theorem trusted_of_sound {x : Fin 3} (selected : select (mirrorsAt w drive e) = some i)
    (sound : (mirrorsAt w drive e x).Sound) : (mirrorsAt w drive e i).csumOk = true :=
  Mirror.csum_of_rank (le_trans (Mirror.rank_high sound.csum)
    ((select_spec selected).2.1 x sound.acceptable))

/-- A trusted selection lets writing be switched on. -/
theorem setWriteEnabled_ok
    (trusted : (mirrorsAt w drive e i).csumOk = true) :
    (btrfsSetWriteEnabled (selectedState w drive e i) true).1 =
      { selectedState w drive e i with writeEnabled := true } := by
  have type : (selectedState w drive e i).csumType = 0 := by
    have csum := trusted
    rw [mirrorsAt_eq, mirrorsOf_csum] at csum
    obtain ⟨shown, right⟩ := csum
    unfold csumOk at right
    rw [decide_eq_true_iff] at right
    unfold selectedState copySelected
    rw [found_eq, if_pos shown]
    exact right.1
  unfold btrfsSetWriteEnabled
  rw [if_neg (by decide), if_neg]
  show ¬((!true) = true ∨ (!(mirrorsAt w drive e i).csumOk) = true ∨ (selectedState w drive e i).csumType ≠ 0)
  rw [trusted, type]
  decide

/-- The update succeeds when all mirrors that can be trusted are valid and the drive answers. -/
theorem labelSet_ok (selected : select (mirrorsAt w drive e) = some i)
    (trusted : (mirrorsAt w drive e i).csumOk = true)
    (sound : ∀ x, (mirrorsAt w drive e x).usable = true → (mirrorsAt w drive e x).Sound)
    (writable : ∀ lba, diskWritable w.drives drive lba = true) (ok : labelOk label = true) :
    (btrfsLabelSet (fun _ => true) w (btrfsSetWriteEnabled (selectedState w drive e i) true).1 label).2.2 =
      .ok () := by
  have short := labelOk_length ok
  rw [setWriteEnabled_ok trusted]
  obtain ⟨st, state⟩ : ∃ st, st = { selectedState w drive e i with writeEnabled := true } := ⟨_, rfl⟩
  have mirrors : st.mirrors = mirrorsAt w drive e := by rw [state]; rfl
  have onDrive : st.drive = drive := by rw [state]; rfl
  have start : st.partLba = e.lbaStart := by rw [state]; rfl
  have read : ∀ x, (st.mirrors x).usable = true →
      readSuper w st.drive st.partLba x = some (superAt w.disk st.drive st.partLba x) := by
    intro x used
    rw [mirrors, usable_mirrorsAt] at used
    rw [onDrive, start, readSuper_eq, if_pos used.1.2]
  have offset : ∀ x, (st.mirrors x).offset = mirrorOffset x := by
    intro x
    rw [mirrors]
    unfold mirrorsAt
    cases found w drive e x with
    | none => rfl
    | some s => rfl
  have valid : ∀ x, (st.mirrors x).usable = true →
      superValidAt (superAt w.disk st.drive st.partLba x) (mirrorOffset x) = true := by
    intro x used
    rw [mirrors] at used
    rw [onDrive, start]
    exact (sound_mirrorsAt.mp (sound x used)).2
  rw [← state]
  unfold btrfsLabelSet
  have enabled : ¬((!st.writeEnabled) = true ∨ (!st.valid) = true ∨ (!st.trusted) = true ∨
      (!labelOk label) = true) := by
    rw [state, ok]
    show ¬((!true) = true ∨ (!true) = true ∨ (!(mirrorsAt w drive e i).csumOk) = true ∨ (!true) = true)
    rw [trusted]
    decide
  have any : ¬∀ x, (st.mirrors x).usable = false := by
    intro none
    have here := none i
    rw [mirrors] at here
    have used : (mirrorsAt w drive e i).usable = true := by
      unfold Mirror.usable
      rw [trusted, Mirror.acceptable_present (select_spec selected).1]
      rfl
    rw [used] at here
    cases here
  rw [if_neg enabled, preflight_ok fun x used => ⟨_, read x used, by rw [offset]; exact valid x used⟩]
  dsimp only
  rw [if_neg any]
  have low : ∀ x s, transaction w st label x = some s → mirrorLba st.partLba x ≤ 0xFFFFFFFF := by
    intro x s here
    unfold transaction at here
    by_cases used : (st.mirrors x).usable = true
    · rw [mirrors, usable_mirrorsAt] at used
      rw [start]
      exact used.1.2.1
    · rw [if_neg used] at here
      cases here
  have done : (writeMirrors (fun _ => true) st (transaction w st label) w writeOrder).2 = .ok () :=
    writeMirrors_ok (fun _ => rfl) low (by rw [onDrive]; exact writable) writeOrder
  obtain ⟨k, -, all⟩ := writeMirrors_spec (fun _ => true) st (transaction w st label) w writeOrder
  have after := all done
  obtain ⟨w', outcome⟩ : ∃ w', w' = (writeMirrors (fun _ => true) st (transaction w st label) w writeOrder).1 :=
    ⟨_, rfl⟩
  have result : writeMirrors (fun _ => true) st (transaction w st label) w writeOrder = (w', .ok ()) :=
    Prod.ext outcome.symm done
  rw [result]
  dsimp only
  rw [← outcome, transactionWrites_eq read] at after
  have passes : ∀ x, (st.mirrors x).usable = true → Passes w' (st.generation + 1) label st x := by
    intro x used
    refine ⟨relabel (superAt w.disk st.drive st.partLba x) (st.generation + 1) label, ?_, ?_, ?_, ?_⟩
    · have readable : Readable w.drives st.drive st.partLba x := by
        rw [mirrors, usable_mirrorsAt] at used
        rw [onDrive, start]
        exact used.1.2
      rw [readSuper_eq, after]
      show (if Readable w.drives st.drive st.partLba x then some (superAt (applyWrites w.disk _) _ _ _) else none) = _
      have mem : x ∈ written fun i => (st.mirrors i).usable := mem_written.mpr used
      rw [if_pos readable, superAt_done]
      exact congrArg Option.some (if_pos mem)
    · rw [offset]
      exact relabel_valid short (valid x used)
    · exact relabel_generation short
    · exact relabel_string ok (by omega) (by omega)
  have checked : (verify w' (st.generation + 1) label st readOrder).2 = .ok () := verify_ok passes
  obtain ⟨st', verified⟩ : ∃ st', st' = (verify w' (st.generation + 1) label st readOrder).1 := ⟨_, rfl⟩
  have result' : verify w' (st.generation + 1) label st readOrder = (st', .ok ()) :=
    Prod.ext verified.symm checked
  rw [result']

end Success

/-! ### Images -/

/-- The fields of a superblock of mirror `i` with a generation and a number of used bytes;
`over_` gives the rest of its first sector. -/
def imageBody (i : Fin 3) (generation used : UInt64) (over_ : Nat → UInt8) : Super := fun k =>
  if 0x30 ≤ k.val ∧ k.val < 0x38 then u64Byte (mirrorOffset i) (k.val - 0x30)
  else if 0x40 ≤ k.val ∧ k.val < 0x48 then magic.getD (k.val - 0x40) 0
  else if 0x48 ≤ k.val ∧ k.val < 0x50 then u64Byte generation (k.val - 0x48)
  else if 0x78 ≤ k.val ∧ k.val < 0x80 then u64Byte used (k.val - 0x78)
  else if k.val = 0x91 then 0x10
  else if k.val = 0x95 then 0x40
  else if k.val < 512 then over_ k.val
  else 0

def imageSuper (i : Fin 3) (generation used : UInt64) (over_ : Nat → UInt8) : Super :=
  sealed (imageBody i generation used over_)

theorem imageSuper_behind (i : Fin 3) (generation used : UInt64) (over_ : Nat → UInt8) {k : Nat}
    (behind : 512 ≤ k) (less : k < 4096) : (imageSuper i generation used over_).byteAt k = 0 := by
  unfold imageSuper
  rw [sealed_byteAt (by omega) less]
  unfold Block.byteAt imageBody
  rw [dif_pos less]
  dsimp only
  rw [if_neg (by omega), if_neg (by omega), if_neg (by omega), if_neg (by omega), if_neg (by omega),
    if_neg (by omega), if_neg (by omega)]

theorem superAt_of_sectors {disk : Disk} {drive : Int} {partLba : UInt32} {i : Fin 3} {s : Super}
    (there : ∀ j, j < 8 → disk (mirrorAddr drive partLba i j) = sector s j) :
    superAt disk drive partLba i = s := by
  funext k
  have inside : k.val % 512 < 512 := by omega
  have whole : k.val / 512 * 512 + k.val % 512 = k.val := by omega
  unfold superAt
  rw [there _ (by omega)]
  simp only [Block.byteAt, inside, dif_pos, sector, whole, k.isLt]

theorem superValidAt_sealed {s : Super} {off : UInt64} (magic : magicOk (sealed s) = true)
    (geometry : geometryOk (sealed s) = true) (bytenr : u64At (sealed s).byteAt 0x30 = off)
    (type : u16At s.byteAt 0xC4 = 0) : superValidAt (sealed s) off = true := by
  unfold superValidAt
  rw [decide_eq_true_iff]
  exact ⟨magic, geometry, bytenr, csumOk_sealed type⟩

theorem generation_mirrorsAt {w : World} {drive : Int} {e : MbrEntry} {x : Fin 3}
    (shown : Shown w.drives drive e x) :
    (mirrorsAt w drive e x).generation = u64At (superAt w.disk drive e.lbaStart x).byteAt 0x48 := by
  classical
  rw [mirrorsAt_eq, mirrorsOf_shown shown]
  rfl

end AtmKoala.Btrfs
