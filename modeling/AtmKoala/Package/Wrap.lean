import AtmKoala.Package.Texts

/-!
The package that `tzst_wrap_elf` writes.

* `zstdUnpackRaw_wrap`: the frame of an archive is unpacked to it.
* `wrapArchive_entries`: the three files of the archive, as the scans see them.
* `wrap_round_trip`: the parser reads back the name, the version, the program and its line of
  the manifest, but for a program called `..` and a version with a tab in front.
-/

namespace AtmKoala.Package

open Lib

variable {name data tar front s : Bytes} {pos fuel k : Nat}

/-! ### The frame -/

/-- The size of the next block. -/
def chunk (ts ip : Nat) : Nat := if 131071 < ts - ip then 131071 else ts - ip

/-- The header of the next block, a raw one. -/
def chunkHeader (ts ip : Nat) : Nat :=
  chunk ts ip * 8 + (if ip + chunk ts ip = ts then 1 else 0)

variable {ts ip : Nat}

theorem chunk_bounds (ahead : ip < ts) :
    0 < chunk ts ip ∧ chunk ts ip ≤ 131071 ∧ ip + chunk ts ip ≤ ts := by
  unfold chunk
  split <;> omega

theorem chunkHeader_bits (ahead : ip < ts) :
    chunkHeader ts ip < 2 ^ 24 ∧ chunkHeader ts ip / 2 % 4 = 0 ∧
      chunkHeader ts ip / 8 = chunk ts ip ∧
      (chunkHeader ts ip % 2 = 1 ↔ ip + chunk ts ip = ts) := by
  obtain ⟨-, small, -⟩ := chunk_bounds ahead
  unfold chunkHeader
  by_cases last : ip + chunk ts ip = ts
  · rw [if_pos last]
    refine ⟨by omega, by omega, by omega, ?_⟩
    exact ⟨fun _ => last, fun _ => by omega⟩
  · rw [if_neg last]
    refine ⟨by omega, by omega, by omega, ?_⟩
    exact ⟨fun odd => by omega, fun done => absurd done last⟩

theorem wrapBlocks_cons (ahead : ip < ts) (k : Nat) :
    wrapBlocks tar ts (k + 1) ip =
      UInt8.ofNat (chunkHeader ts ip) :: UInt8.ofNat (chunkHeader ts ip / 256) ::
        UInt8.ofNat (chunkHeader ts ip / 65536) ::
          ((tar.drop ip).take (chunk ts ip) ++ wrapBlocks tar ts k (ip + chunk ts ip)) := by
  rw [wrapBlocks, if_neg (by omega)]
  rfl

/-- A header is read back. -/
theorem blockBits_cons {h : Nat} (below : h < 2 ^ 24) (front rest : Bytes) :
    blockBits (front ++ UInt8.ofNat h :: UInt8.ofNat (h / 256) :: UInt8.ofNat (h / 65536) :: rest)
      front.length = h := by
  have at_ : ∀ i, (front ++ UInt8.ofNat h :: UInt8.ofNat (h / 256) :: UInt8.ofNat (h / 65536) ::
      rest).getD (front.length + i) 0 = (UInt8.ofNat h :: UInt8.ofNat (h / 256) ::
        UInt8.ofNat (h / 65536) :: rest).getD i 0 := by
    intro i
    rw [List.getD_append_right _ _ _ _ (Nat.le_add_right ..), Nat.add_sub_cancel_left]
  have first := at_ 0
  rw [Nat.add_zero] at first
  rw [blockBits, first, at_ 1, at_ 2]
  show (UInt8.ofNat h).toNat + 256 * (UInt8.ofNat (h / 256)).toNat +
    65536 * (UInt8.ofNat (h / 65536)).toNat = h
  rw [UInt8.toNat_ofNat', UInt8.toNat_ofNat', UInt8.toNat_ofNat']
  omega

/-- One raw block that lies in the frame and fits the output. -/
theorem zstdBlocks_raw {src out : Bytes} {cap declared : Nat} (small : src.length < 2 ^ 31)
    (inside : ip + 3 + blockBits src ip / 8 ≤ src.length)
    (room : out.length + blockBits src ip / 8 ≤ cap) (capSmall : cap < 2 ^ 31)
    (raw : blockBits src ip / 2 % 4 = 0) (fuel : Nat) :
    zstdBlocks src cap declared (fuel + 1) ip out =
      (let out := out ++ (src.drop (ip + 3)).take (blockBits src ip / 8)
      if blockBits src ip % 2 = 1 then
        .ok (if declared ≠ 0 ∧ declared ≠ out.length then (-8, out) else (0, out))
      else zstdBlocks src cap declared fuel (ip + 3 + blockBits src ip / 8) out) := by
  have length : ((src.drop (ip + 3)).take (blockBits src ip / 8)).length =
      blockBits src ip / 8 := by
    rw [List.length_take, List.length_drop]
    omega
  rw [zstdBlocks, u32_of_lt (by omega), if_neg (by omega),
    ok_bind (blockHeader_ok (by omega) (by omega))]
  dsimp only
  rw [if_pos raw, u32_of_lt (by omega), u32_of_lt (by omega), if_neg (by omega),
    ok_bind (bytesAt_ok inside), ok_bind (emit_ok (by rw [length]; exact room))]
  rfl

/-- **Blocks written** for a text are unpacked to it. -/
theorem zstdBlocks_wrap {cap : Nat} (front : Bytes) (k : Nat) (whole : ts ≤ tar.length) (room : ts ≤ cap)
    (capSmall : cap < 2 ^ 31) (ahead : ip < ts) (enough : ts - ip ≤ k)
    (fueled : ts - ip ≤ 131071 * fuel)
    (small : (front ++ wrapBlocks tar ts k ip).length < 2 ^ 31) :
    zstdBlocks (front ++ wrapBlocks tar ts k ip) cap ts fuel front.length (tar.take ip) =
      .ok (0, tar.take ts) := by
  induction fuel generalizing ip k front with
  | zero => omega
  | succ fuel ih =>
    cases k with
    | zero => omega
    | succ k =>
      obtain ⟨some_, most, within⟩ := chunk_bounds ahead
      obtain ⟨below, raw, size, last⟩ := chunkHeader_bits ahead
      have lenChunk : ((tar.drop ip).take (chunk ts ip)).length = chunk ts ip := by
        rw [List.length_take, List.length_drop]
        omega
      have lenOut : (tar.take ip).length = ip := by
        rw [List.length_take]
        omega
      have grown : tar.take ip ++ (tar.drop ip).take (chunk ts ip) =
          tar.take (ip + chunk ts ip) := List.take_add.symm
      rw [wrapBlocks_cons ahead] at small ⊢
      have bits := blockBits_cons below front
        ((tar.drop ip).take (chunk ts ip) ++ wrapBlocks tar ts k (ip + chunk ts ip))
      have lengths := small
      rw [List.length_append, List.length_cons, List.length_cons, List.length_cons,
        List.length_append, lenChunk] at lengths
      have data : ((front ++ UInt8.ofNat (chunkHeader ts ip) ::
          UInt8.ofNat (chunkHeader ts ip / 256) :: UInt8.ofNat (chunkHeader ts ip / 65536) ::
            ((tar.drop ip).take (chunk ts ip) ++
              wrapBlocks tar ts k (ip + chunk ts ip))).drop (front.length + 3)).take
            (chunk ts ip) = (tar.drop ip).take (chunk ts ip) := by
        rw [drop_front]
        exact List.take_left' lenChunk
      rw [zstdBlocks_raw small (by
          rw [bits, size, List.length_append, List.length_cons, List.length_cons,
            List.length_cons, List.length_append, lenChunk]
          omega) (by rw [bits, size, lenOut]; omega) capSmall (by rw [bits, raw]) fuel,
        bits, size, data, grown]
      dsimp only
      by_cases done : ip + chunk ts ip = ts
      · rw [if_pos (last.mpr done), done, if_neg (by rw [List.length_take]; omega)]
      · have regroup : front ++ UInt8.ofNat (chunkHeader ts ip) ::
            UInt8.ofNat (chunkHeader ts ip / 256) :: UInt8.ofNat (chunkHeader ts ip / 65536) ::
              ((tar.drop ip).take (chunk ts ip) ++ wrapBlocks tar ts k (ip + chunk ts ip)) =
            (front ++ UInt8.ofNat (chunkHeader ts ip) ::
              UInt8.ofNat (chunkHeader ts ip / 256) :: UInt8.ofNat (chunkHeader ts ip / 65536) ::
                (tar.drop ip).take (chunk ts ip)) ++
              wrapBlocks tar ts k (ip + chunk ts ip) := by
          simp only [List.append_assoc, List.cons_append]
        have behind : front.length + 3 + chunk ts ip =
            (front ++ UInt8.ofNat (chunkHeader ts ip) ::
              UInt8.ofNat (chunkHeader ts ip / 256) :: UInt8.ofNat (chunkHeader ts ip / 65536) ::
                (tar.drop ip).take (chunk ts ip)).length := by
          simp only [List.length_append, List.length_cons, lenChunk]
          omega
        rw [if_neg fun odd => done (last.mp odd), regroup, behind]
        rw [regroup] at small
        have full : chunk ts ip = 131071 := by
          by_cases long : 131071 < ts - ip
          · exact if_pos long
          · have rest : chunk ts ip = ts - ip := if_neg long
            omega
        exact ih _ k (by omega) (by omega) (by omega) small

/-- **The declared size** is read back. -/
theorem declaredSize_le64 {v : Nat} (below : v < 2 ^ 32) : declaredSize (le64 v) = v := by
  have high : ∀ i, 4 ≤ i → v / 256 ^ i = 0 := by
    intro i large
    refine Nat.div_eq_of_lt (below.trans_le ?_)
    calc 2 ^ 32 = 256 ^ 4 := by norm_num
      _ ≤ 256 ^ i := Nat.pow_le_pow_right (by decide) large
  show (UInt8.ofNat (v / 256 ^ 0)).toNat + 256 * ((UInt8.ofNat (v / 256 ^ 1)).toNat + 256 *
    ((UInt8.ofNat (v / 256 ^ 2)).toNat + 256 * ((UInt8.ofNat (v / 256 ^ 3)).toNat + 256 *
    ((UInt8.ofNat (v / 256 ^ 4)).toNat + 256 * ((UInt8.ofNat (v / 256 ^ 5)).toNat + 256 *
    ((UInt8.ofNat (v / 256 ^ 6)).toNat + 256 * ((UInt8.ofNat (v / 256 ^ 7)).toNat +
      256 * 0))))))) = v
  rw [high 4 (by decide), high 5 (by decide), high 6 (by decide), high 7 (by decide)]
  simp only [UInt8.toNat_ofNat']
  omega

/-- What stands in front of the blocks. -/
def wrapFront (ts : Nat) : Bytes := zstdMagic ++ [0xE0] ++ le64 ts

theorem length_wrapFront (ts : Nat) : (wrapFront ts).length = 13 := rfl

/-- **The frame of an archive** is unpacked to it. -/
theorem zstdUnpackRaw_wrap (cap fuel : Nat) (whole : ts ≤ tar.length) (room : ts ≤ cap)
    (capSmall : cap < 2 ^ 31) (some_ : 0 < ts) (fueled : ts ≤ 131071 * fuel)
    (small : (wrapFront ts ++ wrapBlocks tar ts ts 0).length < 2 ^ 31) :
    zstdUnpackRaw fuel (wrapFront ts ++ wrapBlocks tar ts ts 0) cap = .ok (0, tar.take ts) := by
  have blocks := zstdBlocks_wrap (wrapFront ts) ts whole room capSmall some_
    (Nat.le_of_eq (Nat.sub_zero _)) (by omega) small
  generalize wrapBlocks tar ts ts 0 = rest at *
  have long : 13 ≤ (wrapFront ts ++ rest).length := by
    rw [List.length_append, length_wrapFront]
    exact Nat.le_add_right ..
  have magic : bytesAt (wrapFront ts ++ rest) 0 4 = .ok zstdMagic := by
    rw [bytesAt_ok (by omega)]
    rfl
  have desc : byteAt (wrapFront ts ++ rest) 4 = .ok 0xE0 := rfl
  have size : bytesAt (wrapFront ts ++ rest) 5 8 = .ok (le64 ts) := by
    rw [bytesAt_ok (by omega)]
    rfl
  rw [zstdUnpackRaw, if_neg (by omega), ok_bind magic, if_neg (not_not.mpr rfl), ok_bind desc]
  dsimp only
  rw [show dictSize (0xE0 : UInt8).toNat = 0 from rfl,
    show contentSize (0xE0 : UInt8).toNat = 8 from rfl, u32_of_lt (by omega), if_neg (by omega),
    u32_of_lt (by omega), if_neg (by omega), ok_bind size, declaredSize_le64 (by omega)]
  exact blocks

theorem length_wrapBlocks (k ip m : Nat) (whole : ts ≤ tar.length) (enough : ts - ip ≤ 131071 * m) :
    (wrapBlocks tar ts k ip).length ≤ ts - ip + 3 * m := by
  induction m generalizing ip k with
  | zero =>
    cases k with
    | zero => exact Nat.zero_le _
    | succ k =>
      rw [wrapBlocks, if_pos (by omega)]
      exact Nat.zero_le _
  | succ m ih =>
    cases k with
    | zero => exact Nat.zero_le _
    | succ k =>
      by_cases ahead : ip < ts
      · obtain ⟨some_, most, within⟩ := chunk_bounds ahead
        have rest : ts - (ip + chunk ts ip) ≤ 131071 * m := by
          by_cases long : 131071 < ts - ip
          · have full : chunk ts ip = 131071 := if_pos long
            omega
          · have all : chunk ts ip = ts - ip := if_neg long
            omega
        have shorter := ih k _ rest
        rw [wrapBlocks_cons ahead, List.length_cons, List.length_cons, List.length_cons,
          List.length_append, List.length_take, List.length_drop]
        omega
      · rw [wrapBlocks, if_pos (by omega)]
        exact Nat.zero_le _

/-! ### The archive -/

/-- The entries of a package. -/
def controlEntry (name ver : Bytes) : Bytes := entryBytes controlName (controlText name ver)

def manifestEntry (elf name : Bytes) : Bytes :=
  entryBytes manifestName (manifestText elf (payloadPath name))

def payloadEntry (elf name : Bytes) : Bytes := entryBytes (payloadPath name) elf

/-- **The archive of a package.** -/
def wrapArchive (elf name ver : Bytes) : Bytes :=
  controlEntry name ver ++ (manifestEntry elf name ++
    (payloadEntry elf name ++ List.replicate 1024 0))

/-- What a name, a version and a program have to be for a package. -/
structure Wrappable (elf name ver : Bytes) : Prop where
  named : validPkgName name = true
  real : name ≠ ascii ".."
  small : elf.length ≤ tzstMaxUnpacked - 4096
  fits : ver.length < 32
  plain : ∀ b ∈ ver, b ≠ 0 ∧ isBreak b = false

variable {elf ver : Bytes}

theorem Wrappable.name_plain (w : Wrappable elf name ver) :
    name ≠ [] ∧ name.length < 64 ∧
      ∀ b ∈ name, b ≠ 0 ∧ b ≠ slashByte ∧ b ≠ 32 ∧ isBreak b = false := by
  have valid := w.named
  rw [validPkgName, Bool.and_eq_true, Bool.and_eq_true, List.all_eq_true] at valid
  refine ⟨of_decide_eq_true valid.1.1, of_decide_eq_true valid.1.2, fun b mem => ?_⟩
  obtain ⟨live, other, space, -, newline, return_⟩ := packageByte_plain (valid.2 b mem)
  refine ⟨live, other, space, ?_⟩
  rw [isBreak, Bool.or_eq_false_iff]
  exact ⟨decide_eq_false newline, decide_eq_false return_⟩

theorem payloadPath_plain (w : Wrappable elf name ver) :
    payloadPath name ≠ [] ∧ (payloadPath name).length < 73 ∧
      (∀ b ∈ payloadPath name, b ≠ 0 ∧ b ≠ 32 ∧ isBreak b = false) ∧
      tarSafeName (payloadPath name ++ [0]) = .ok true := by
  obtain ⟨named, short, plain⟩ := w.name_plain
  have folder : (ascii "data/bin/").length = 9 := by decide
  have folderPlain : ∀ b ∈ ascii "data/bin/", b ≠ 0 ∧ b ≠ 32 ∧ isBreak b = false := by decide
  refine ⟨fun none_ => named (List.append_eq_nil_iff.mp none_).2, ?_, fun b mem => ?_,
    payloadPath_safe named (fun b mem => ⟨(plain b mem).1, (plain b mem).2.1⟩) ?_⟩
  · rw [payloadPath, List.length_append, folder]
    omega
  · rcases List.mem_append.mp mem with inFolder | inName
    · exact folderPlain b inFolder
    · obtain ⟨live, -, space, noBreak⟩ := plain b inName
      exact ⟨live, space, noBreak⟩
  · have dots : ascii ".." = [dotByte, dotByte] := by decide
    exact dots ▸ w.real

theorem length_controlText (w : Wrappable elf name ver) :
    0 < (controlText name ver).length ∧ (controlText name ver).length ≤ 512 := by
  obtain ⟨-, short, -⟩ := w.name_plain
  have fits := w.fits
  have package : (ascii "Package: ").length = 9 := by decide
  have version : (ascii "\nVersion: ").length = 10 := by decide
  have others : (ascii
      "\nArchitecture: atmkoala-x86_64\nDescription: Native ATMKoala application\n").length < 100 := by
    decide
  rw [controlText, List.length_append, List.length_append, List.length_append,
    List.length_append, package, version]
  omega

theorem length_manifestText (w : Wrappable elf name ver) :
    0 < (manifestText elf (payloadPath name)).length ∧
      (manifestText elf (payloadPath name)).length ≤ 512 := by
  obtain ⟨-, short, -⟩ := payloadPath_plain w
  have small := w.small
  have size := length_kuitoa (n := elf.length) (by unfold tzstMaxUnpacked at small; omega)
  have hex : (hexText (crc32 elf).toNat).length = 8 := rfl
  rw [manifestText, List.length_append, List.length_append, List.length_append,
    List.length_append, List.length_append, hex]
  simp only [List.length_singleton]
  omega

theorem align512_one {n : Nat} (some_ : 0 < n) (short : n ≤ 512) : align512 n = 512 := by
  rw [align512_eq (by omega)]
  unfold tarBlock
  omega

theorem controlName_plain : controlName.length = 12 ∧ (∀ b ∈ controlName, b ≠ 0) ∧
    tarSafeName (controlName ++ [0]) = .ok true := by
  refine ⟨by decide, by decide, ?_⟩
  decide +kernel

theorem manifestName_plain : manifestName.length = 13 ∧ (∀ b ∈ manifestName, b ≠ 0) ∧
    tarSafeName (manifestName ++ [0]) = .ok true := by
  refine ⟨by decide, by decide, ?_⟩
  decide +kernel

/-- The sizes of the entries. -/
theorem length_entries (w : Wrappable elf name ver) :
    (controlEntry name ver).length = 1024 ∧ (manifestEntry elf name).length = 1024 ∧
      (payloadEntry elf name).length = 512 + align512 elf.length ∧
      align512 elf.length ≤ 258048 ∧ elf.length ≤ align512 elf.length := by
  obtain ⟨someC, shortC⟩ := length_controlText w
  obtain ⟨someM, shortM⟩ := length_manifestText w
  obtain ⟨-, shortP, -⟩ := payloadPath_plain w
  have small := w.small
  unfold tzstMaxUnpacked at small
  refine ⟨?_, ?_, ?_, ?_, ?_⟩
  · rw [controlEntry, length_entryBytes (by rw [controlName_plain.1]; decide) (by omega),
      align512_one someC shortC]
    rfl
  · rw [manifestEntry, length_entryBytes (by rw [manifestName_plain.1]; decide) (by omega),
      align512_one someM shortM]
    rfl
  · rw [payloadEntry, length_entryBytes (by omega) (by omega)]
    rfl
  · rw [align512_eq (by omega)]
    unfold tarBlock
    omega
  · exact (align512_le (by omega)).1

theorem length_wrapArchive (w : Wrappable elf name ver) :
    (wrapArchive elf name ver).length = 3584 + align512 elf.length := by
  obtain ⟨first, second, third, -, -⟩ := length_entries w
  rw [wrapArchive, List.length_append, List.length_append, List.length_append, first, second,
    third, List.length_replicate]
  omega

/-- **The archive written** by `tzst_wrap_elf`, and the frame around it. -/
theorem tzstWrapElf_ok {cap : Nat} (w : Wrappable elf name ver)
    (room : 3616 + align512 elf.length ≤ cap) :
    tzstWrapElf elf name (some ver) cap = .ok (wrapFront (3584 + align512 elf.length) ++
      wrapBlocks (wrapArchive elf name ver ++
          List.replicate (tzstMaxUnpacked - (3584 + align512 elf.length)) 0)
        (3584 + align512 elf.length) (3584 + align512 elf.length) 0) := by
  obtain ⟨someC, shortC⟩ := length_controlText w
  obtain ⟨someM, shortM⟩ := length_manifestText w
  obtain ⟨-, shortP, -, safeP⟩ := payloadPath_plain w
  obtain ⟨first, second, third, most, least⟩ := length_entries w
  have alignC := align512_one someC shortC
  have alignM := align512_one someM shortM
  have small := w.small
  have max : tzstMaxUnpacked = 262144 := rfl
  have block : tarBlock = 512 := rfl
  have lenC := controlName_plain.1
  have lenM := manifestName_plain.1
  have stepC := tarWriteFile_zeros tzstMaxUnpacked (tzstMaxUnpacked - 1024) [] controlName
    (controlText name ver) (by omega) controlName_plain.2.2 (by omega) (by decide)
    (by rw [alignC, List.length_nil]; omega)
  have stepM := tarWriteFile_zeros tzstMaxUnpacked (tzstMaxUnpacked - 2048)
    (controlEntry name ver) manifestName (manifestText elf (payloadPath name)) (by omega)
    manifestName_plain.2.2 (by omega) (by omega) (by rw [alignM, first]; omega)
  have stepP := tarWriteFile_zeros tzstMaxUnpacked
    (1024 + (tzstMaxUnpacked - (3584 + align512 elf.length)))
    (controlEntry name ver ++ manifestEntry elf name) (payloadPath name) elf (by omega) safeP
    (by omega) (by rw [List.length_append]; omega) (by rw [List.length_append]; omega)
  rw [alignC, List.nil_append, List.nil_append, List.length_nil, ← controlEntry,
    show tarBlock + 512 + (tzstMaxUnpacked - 1024) = tzstMaxUnpacked from rfl,
    show 0 + tarBlock + 512 = 1024 from rfl] at stepC
  rw [alignM, first, ← manifestEntry,
    show tarBlock + 512 + (tzstMaxUnpacked - 2048) = tzstMaxUnpacked - 1024 from rfl,
    show 1024 + tarBlock + 512 = 2048 from rfl] at stepM
  rw [List.length_append, first, second, ← payloadEntry,
    show tarBlock + align512 elf.length + (1024 + (tzstMaxUnpacked - (3584 + align512 elf.length))) =
      tzstMaxUnpacked - 2048 by omega,
    show 1024 + 1024 + tarBlock + align512 elf.length = 2560 + align512 elf.length by omega] at stepP
  have whole : controlEntry name ver ++ manifestEntry elf name ++ payloadEntry elf name ++
      List.replicate (1024 + (tzstMaxUnpacked - (3584 + align512 elf.length))) 0 =
      wrapArchive elf name ver ++
        List.replicate (tzstMaxUnpacked - (3584 + align512 elf.length)) 0 := by
    rw [wrapArchive, ← List.replicate_append_replicate]
    simp only [List.append_assoc]
  rw [whole] at stepP
  rw [tzstWrapElf, if_neg (by
    rw [w.named]
    rintro (bad | large)
    · exact absurd bad (by decide)
    · omega)]
  simp only [Option.getD_some, stepC, stepM, stepP]
  rw [if_neg (by decide), if_neg (by decide), if_neg (by omega), if_neg (by omega),
    show 2560 + align512 elf.length + 1024 = 3584 + align512 elf.length by omega]
  rfl

/-! ### The archive read back -/

/-- The data of an entry. -/
theorem entryBytes_data (front rest name data : Bytes) (short : name.length ≤ 99) :
    ∃ tail, (front ++ (entryBytes name data ++ rest)).drop (front.length + tarBlock) =
      data ++ tail := by
  have length := (tarHeader_fields short data.length).1
  refine ⟨List.replicate (align512 data.length - data.length) 0 ++ rest, ?_⟩
  rw [drop_front, entryBytes, ← length]
  simp only [List.append_assoc, List.drop_left]

/-- **What the scans see** of a file at a position of an archive. -/
structure EntryAt (tar : Bytes) (pos : Nat) (name : Bytes) (data size next : Nat) : Prop where
  entry : tarNext tar pos = .ok (.entry pos data size 48 next)
  named : cstr (tar.drop pos) = .ok name
  safe : tarSafeName (tar.drop pos) = .ok true

theorem entryAt (front rest name data : Bytes) (short : name.length ≤ 98) (named : name ≠ [])
    (live : ∀ b ∈ name, b ≠ 0) (safe : tarSafeName (name ++ [0]) = .ok true)
    (small : (front ++ (entryBytes name data ++ rest)).length < 2 ^ 30) :
    EntryAt (front ++ (entryBytes name data ++ rest)) front.length name
      (front.length + tarBlock) data.length (front.length + tarBlock + align512 data.length) := by
  have noNul : 0 ∉ name := fun mem => live 0 mem rfl
  obtain ⟨tail, same⟩ := entryBytes_name short data rest
  refine ⟨tarNext_entry front rest short named noNul small, ?_, ?_⟩
  · rw [List.drop_left, same, cstr_name noNul]
  · rw [List.drop_left, same, tarSafeName_nul, safe]

/-- An entry in the loop of the parser. -/
theorem parseLoop_entry {p p' : Parse} {d sz next : Nat}
    (there : EntryAt p.pkg.tar pos name d sz next)
    (step : parseEntry { p with handed := p.handed ++ [⟨pos, d, sz⟩] } name d sz 48 =
      .ok (.ok p')) (fuel : Nat) :
    parseLoop (fuel + 1) pos p = parseLoop fuel next p' := by
  rw [parseLoop, ok_bind there.entry]
  dsimp only
  rw [ok_bind there.safe, if_neg (by decide), ok_bind there.named, ok_bind step]

theorem zeroBytes_replicate {n m : Nat} (enough : n ≤ m) :
    zeroBytes n (List.replicate m 0) = .ok true := by
  induction n generalizing m with
  | zero => rfl
  | succ n ih =>
    cases m with
    | zero => cases enough
    | succ m =>
      rw [List.replicate_succ, zeroBytes, if_neg (not_not.mpr rfl)]
      exact ih (Nat.le_of_succ_le_succ enough)

/-- The end of the archive. -/
theorem tarNext_zeros (front : Bytes) (small : front.length < 2 ^ 30) :
    tarNext (front ++ List.replicate 1024 0) front.length = .ok (.stop 0) := by
  have zero : tarZero (front ++ List.replicate 1024 0) front.length = .ok true := by
    rw [tarZero, List.drop_left]
    exact zeroBytes_replicate (by decide)
  rw [tarNext, u32_of_lt (by unfold tarBlock; omega), if_neg (by
    rw [List.length_append, List.length_replicate]
    unfold tarBlock
    omega), ok_bind zero, if_pos rfl]
  rfl

/-- Where the entries are, and what they hold. -/
def wrapHanded (elf name ver : Bytes) : List Handed :=
  [⟨0, 512, (controlText name ver).length⟩,
    ⟨1024, 1536, (manifestText elf (payloadPath name)).length⟩, ⟨2048, 2560, elf.length⟩]

/-- The parser behind its loop. -/
def wrapParse (elf name ver : Bytes) : Parse :=
  let p := parseStart (wrapArchive elf name ver)
  { p with
    pkg := { p.pkg with fileCount := 3, payloadCount := 1, atpk := true, manifestPresent := true }
    control := some (512, (controlText name ver).length)
    manifest := some (1536, (manifestText elf (payloadPath name)).length)
    handed := wrapHanded elf name ver }

theorem parseEntry_control {p : Parse} {d sz : Nat} (none_ : p.control = none) :
    parseEntry p controlName d sz 48 = .ok (.ok { p with
      pkg := { p.pkg with fileCount := u32 (p.pkg.fileCount + 1), atpk := true }
      control := some (d, sz) }) := by
  have other : (ascii "data/").isPrefixOf controlName = false := by decide
  have file : isFile 48 = true := by decide
  rw [parseEntry, countFile, if_pos file, takeMeta, if_pos rfl, none_, if_neg (by decide)]
  simp only [Except.map, countPayload, other, Bool.false_and, if_neg Bool.false_ne_true]

theorem parseEntry_manifest {p : Parse} {d sz : Nat} (none_ : p.manifest = none) :
    parseEntry p manifestName d sz 48 = .ok (.ok { p with
      pkg := { p.pkg with
        fileCount := u32 (p.pkg.fileCount + 1), atpk := true, manifestPresent := true }
      manifest := some (d, sz) }) := by
  have other : (ascii "data/").isPrefixOf manifestName = false := by decide
  have differs : manifestName ≠ controlName := by decide
  have file : isFile 48 = true := by decide
  rw [parseEntry, countFile, if_pos file, takeMeta, if_neg differs, if_pos rfl, none_,
    if_neg (by decide)]
  simp only [Except.map, countPayload, other, Bool.false_and, if_neg Bool.false_ne_true]

/-- The path of a program is none of the names that the parser knows. -/
theorem payloadPath_other {n : Bytes} (differs : n.head? ≠ some 100) : payloadPath name ≠ n := by
  have folder : ascii "data/bin/" = 100 :: ascii "ata/bin/" := by decide
  have head : (payloadPath name).head? = some 100 := by
    rw [payloadPath, folder]
    rfl
  exact fun same => differs (same ▸ head)

theorem parseEntry_payload {p : Parse} {d sz : Nat} (name : Bytes) :
    parseEntry p (payloadPath name) d sz 48 = .ok (.ok { p with
      pkg := { p.pkg with
        fileCount := u32 (p.pkg.fileCount + 1)
        payloadCount := u32 (p.pkg.payloadCount + 1) } }) := by
  have within : (ascii "data/").isPrefixOf (payloadPath name) = true := by
    rw [List.isPrefixOf_iff_prefix, payloadPath]
    have folder : ascii "data/bin/" = ascii "data/" ++ ascii "bin/" := by decide
    rw [folder, List.append_assoc]
    exact List.prefix_append _ _
  have file : isFile 48 = true := by decide
  rw [parseEntry, countFile, if_pos file, takeMeta, if_neg (payloadPath_other (by decide)),
    if_neg (payloadPath_other (by decide)),
    if_neg fun both => payloadPath_other (by decide) both.1]
  simp only [Except.map, countPayload, within, file, Bool.and_self, if_pos]

/-- **The entries of the archive.** -/
theorem wrapArchive_entries (w : Wrappable elf name ver) :
    EntryAt (wrapArchive elf name ver) 0 controlName 512 (controlText name ver).length 1024 ∧
      EntryAt (wrapArchive elf name ver) 1024 manifestName 1536
        (manifestText elf (payloadPath name)).length 2048 ∧
      EntryAt (wrapArchive elf name ver) 2048 (payloadPath name) 2560 elf.length
        (2560 + align512 elf.length) ∧
      tarNext (wrapArchive elf name ver) (2560 + align512 elf.length) = .ok (.stop 0) := by
  obtain ⟨first, second, third, most, least⟩ := length_entries w
  obtain ⟨someC, shortC⟩ := length_controlText w
  obtain ⟨someM, shortM⟩ := length_manifestText w
  obtain ⟨namedP, shortP, plainP, safeP⟩ := payloadPath_plain w
  have block : tarBlock = 512 := rfl
  have length := length_wrapArchive w
  have archive : wrapArchive elf name ver = controlEntry name ver ++ manifestEntry elf name ++
      (payloadEntry elf name ++ List.replicate 1024 0) := by
    rw [wrapArchive, List.append_assoc]
  have finish : wrapArchive elf name ver = controlEntry name ver ++ manifestEntry elf name ++
      payloadEntry elf name ++ List.replicate 1024 0 := by
    rw [archive]
    simp only [List.append_assoc]
  have front : (controlEntry name ver ++ manifestEntry elf name).length = 2048 := by
    rw [List.length_append, first, second]
  have control := entryAt [] (manifestEntry elf name ++
    (payloadEntry elf name ++ List.replicate 1024 0)) controlName (controlText name ver)
    (by rw [controlName_plain.1]; decide) (by decide) controlName_plain.2.1 controlName_plain.2.2
    (show (wrapArchive elf name ver).length < 2 ^ 30 by omega)
  have manifest := entryAt (controlEntry name ver) (payloadEntry elf name ++
    List.replicate 1024 0) manifestName (manifestText elf (payloadPath name))
    (by rw [manifestName_plain.1]; decide) (by decide) manifestName_plain.2.1
    manifestName_plain.2.2 (show (wrapArchive elf name ver).length < 2 ^ 30 by omega)
  have payload := entryAt (controlEntry name ver ++ manifestEntry elf name)
    (List.replicate 1024 0) (payloadPath name) elf (by omega) namedP
    (fun b mem => (plainP b mem).1) safeP (by rw [← payloadEntry, ← archive]; omega)
  have stop := tarNext_zeros (controlEntry name ver ++ manifestEntry elf name ++
    payloadEntry elf name) (by rw [List.length_append]; omega)
  rw [align512_one someC shortC, block, List.length_nil, Nat.zero_add] at control
  rw [align512_one someM shortM, block, first] at manifest
  rw [← payloadEntry, ← archive, block, front] at payload
  rw [← finish, List.length_append, front, third, ← Nat.add_assoc] at stop
  exact ⟨control, manifest, payload, stop⟩

/-- **The loop of the parser** on the archive of a package. -/
theorem parseLoop_wrap (w : Wrappable elf name ver) (fuel : Nat) :
    parseLoop (fuel + 4) 0 (parseStart (wrapArchive elf name ver)) =
      .ok (0, wrapParse elf name ver) := by
  obtain ⟨control, manifest, payload, stop⟩ := wrapArchive_entries w
  refine (parseLoop_entry control (parseEntry_control rfl) (fuel + 3)).trans ?_
  refine (parseLoop_entry manifest (parseEntry_manifest rfl) (fuel + 2)).trans ?_
  refine (parseLoop_entry payload (parseEntry_payload name) (fuel + 1)).trans ?_
  rw [parseLoop]
  exact (ok_bind stop).trans rfl

theorem controlText_at (elf name ver : Bytes) :
    ∃ tail, (wrapArchive elf name ver).drop 512 = controlText name ver ++ tail := by
  have there := entryBytes_data [] (manifestEntry elf name ++
    (payloadEntry elf name ++ List.replicate 1024 0)) controlName (controlText name ver)
    (by rw [controlName_plain.1]; decide)
  rw [List.length_nil, Nat.zero_add, List.nil_append] at there
  exact there

theorem manifestText_at (w : Wrappable elf name ver) :
    ∃ tail, (wrapArchive elf name ver).drop 1536 =
      manifestText elf (payloadPath name) ++ tail := by
  have there := entryBytes_data (controlEntry name ver)
    (payloadEntry elf name ++ List.replicate 1024 0) manifestName
    (manifestText elf (payloadPath name)) (by rw [manifestName_plain.1]; decide)
  rw [(length_entries w).1] at there
  exact there

theorem payload_at (w : Wrappable elf name ver) :
    ∃ tail, (wrapArchive elf name ver).drop 2560 = elf ++ tail := by
  obtain ⟨-, short, -, -⟩ := payloadPath_plain w
  have there := entryBytes_data (controlEntry name ver ++ manifestEntry elf name)
    (List.replicate 1024 0) (payloadPath name) elf (by omega)
  rw [List.length_append, (length_entries w).1, (length_entries w).2.1, List.append_assoc] at there
  exact there

/-- **The fields of the package**, once the loop is done. -/
theorem parseControl_wrap (w : Wrappable elf name ver) (some_ : ver.dropWhile isBlank ≠ []) :
    ∃ p, parseControl (wrapParse elf name ver) = .ok (0, p) ∧
      p.pkg.tar = wrapArchive elf name ver ∧ p.pkg.atpk = true ∧ p.pkg.packageName = name ∧
      p.pkg.version = ver.dropWhile isBlank ∧ p.handed = wrapHanded elf name ver := by
  obtain ⟨-, short, plain⟩ := w.name_plain
  obtain ⟨tail, there⟩ := controlText_at elf name ver
  have values := controlText_values tail (fun b mem => (plain b mem).2.2.2)
    (fun b mem => (w.plain b mem).2)
  obtain ⟨package, version, architecture⟩ := controlLines_find name ver
  have read : ∀ key cap, copyLineValue (wrapArchive elf name ver) 512
      (controlText name ver).length key cap =
        .ok ((((controlLines name ver).find? (hasKey (ascii key))).map fun l =>
          cut cap ((l.drop ((ascii key).length + 1)).dropWhile isBlank)).getD []) := by
    intro key cap
    rw [copyLineValue, there]
    exact values key cap
  have trimmed : name.dropWhile isBlank = name := by
    cases name with
    | nil => rfl
    | cons b name =>
      rw [List.dropWhile_cons_of_neg]
      have valid := w.named
      rw [validPkgName, Bool.and_eq_true, List.all_eq_true] at valid
      obtain ⟨-, -, space, tab, -, -⟩ := packageByte_plain (valid.2 b List.mem_cons_self)
      simp [isBlank, space, tab]
  have valueName := keyLine_value tzstNameMax (ascii "Package") short
    fun mem => (plain 0 mem).1 rfl
  have valueVersion := keyLine_value 32 (ascii "Version") w.fits
    fun mem => (w.plain 0 mem).1 rfl
  have valueArch : cut 24 (((keyLine (ascii "Architecture") nativeArch).drop
      ((ascii "Architecture").length + 1)).dropWhile isBlank) = nativeArch := by
    rw [keyLine_value _ _ (by decide) (by decide)]
    decide
  have readName := read "Package" tzstNameMax
  have readVersion := read "Version" 32
  have readArch := read "Architecture" 24
  rw [package, Option.map_some, Option.getD_some, valueName, trimmed] at readName
  rw [version, Option.map_some, Option.getD_some, valueVersion] at readVersion
  rw [architecture, Option.map_some, Option.getD_some, valueArch] at readArch
  obtain ⟨desc, readDesc⟩ : ∃ desc, copyLineValue (wrapArchive elf name ver) 512
      (controlText name ver).length "Description" 96 = .ok desc := ⟨_, read "Description" 96⟩
  refine ⟨{ wrapParse elf name ver with
    pkg := { (wrapParse elf name ver).pkg with
      packageName := name
      version := ver.dropWhile isBlank
      architecture := nativeArch
      description := desc } }, ?_, rfl, rfl, rfl, rfl, rfl⟩
  have fine : ¬((!validPkgName name) = true ∨ ver.dropWhile isBlank = [] ∨
      nativeArch ≠ nativeArch ∧ nativeArch ≠ ascii "all") := by
    rw [w.named]
    rintro (bad | none_ | other)
    · exact absurd bad (by decide)
    · exact some_ none_
    · exact other.1 rfl
  have atpk : (wrapParse elf name ver).pkg.atpk = true := rfl
  have control : (wrapParse elf name ver).control = some (512, (controlText name ver).length) := rfl
  have manifest : (wrapParse elf name ver).manifest =
    some (1536, (manifestText elf (payloadPath name)).length) := rfl
  have payload : ¬(wrapParse elf name ver).pkg.payloadCount = 0 := Nat.one_ne_zero
  rw [parseControl, if_pos atpk, control, manifest]
  dsimp only
  rw [if_neg payload]
  refine (ok_bind readName).trans ((ok_bind readVersion).trans ((ok_bind readArch).trans
    ((ok_bind readDesc).trans ?_)))
  exact (if_neg fine).trans rfl

/-- **The manifest is found**, as `install_atpk` looks for it. -/
theorem findManifest_wrap (w : Wrappable elf name ver) (fuel : Nat) :
    findManifest (wrapArchive elf name ver) (fuel + 2) 0 =
      .ok (some (1536, (manifestText elf (payloadPath name)).length)) := by
  obtain ⟨control, manifest, -, -⟩ := wrapArchive_entries w
  have other : controlName ≠ manifestName := by decide
  rw [findManifest, ok_bind control.entry]
  dsimp only
  rw [ok_bind control.named, if_neg other, findManifest, ok_bind manifest.entry]
  dsimp only
  rw [ok_bind manifest.named, if_pos rfl]
  rfl

/-- **The program passes** the check of its size and its checksum. -/
theorem manifestCheck_wrap (w : Wrappable elf name ver) (fuel : Nat) :
    bytesAt (wrapArchive elf name ver) 2560 elf.length = .ok elf ∧
      manifestCheck (fuel + 2) (wrapArchive elf name ver) (payloadPath name) 2560 elf.length =
        .ok true := by
  obtain ⟨-, -, -, -, least⟩ := length_entries w
  obtain ⟨-, short, plain, -⟩ := payloadPath_plain w
  have small := w.small
  unfold tzstMaxUnpacked at small
  have length := length_wrapArchive w
  obtain ⟨tail, text⟩ := manifestText_at w
  obtain ⟨tail', program⟩ := payload_at w
  have read : bytesAt (wrapArchive elf name ver) 2560 elf.length = .ok elf := by
    rw [bytesAt_ok (by omega), program, List.take_left]
  have found : manifestFind (wrapArchive elf name ver) 1536
      (manifestText elf (payloadPath name)).length (payloadPath name) =
        .ok (some ((crc32 elf).toNat, elf.length)) := by
    rw [manifestFind, text]
    exact manifestText_found (by omega) (by omega) plain tail
  refine ⟨read, ?_⟩
  rw [manifestCheck, ok_bind (findManifest_wrap w fuel)]
  dsimp only
  rw [ok_bind found]
  dsimp only
  rw [ok_bind read]
  simp only [decide_true, Bool.and_self]
  rfl

/-! ### The package -/

/-- A package is parsed as it was wrapped, but for the blanks in front of its version. -/
theorem wrap_parses (cap : Nat) (w : Wrappable elf name ver)
    (some_ : ver.dropWhile isBlank ≠ []) (room : 3616 + align512 elf.length ≤ cap) :
    ∃ out, tzstWrapElf elf name (some ver) cap = .ok out ∧ out.length ≤ cap ∧
      ∃ p, (∀ fuel, tzstParse (fuel + 4) out = .ok (0, p)) ∧
        p.pkg.tar = wrapArchive elf name ver ∧ p.pkg.atpk = true ∧ p.pkg.packageName = name ∧
        p.pkg.version = ver.dropWhile isBlank ∧ p.handed = wrapHanded elf name ver := by
  obtain ⟨-, -, -, most, -⟩ := length_entries w
  have length := length_wrapArchive w
  have max : tzstMaxUnpacked = 262144 := rfl
  have wrapped := tzstWrapElf_ok w room
  generalize behind : List.replicate (tzstMaxUnpacked - (3584 + align512 elf.length)) (0 : UInt8) =
    zeros at wrapped
  have whole : 3584 + align512 elf.length ≤ (wrapArchive elf name ver ++ zeros).length := by
    rw [List.length_append]
    omega
  have archive : (wrapArchive elf name ver ++ zeros).take (3584 + align512 elf.length) =
      wrapArchive elf name ver := List.take_left' length
  have blocks := length_wrapBlocks (3584 + align512 elf.length) 0 2 whole (by omega)
  have size : (wrapFront (3584 + align512 elf.length) ++ wrapBlocks
      (wrapArchive elf name ver ++ zeros) (3584 + align512 elf.length)
      (3584 + align512 elf.length) 0).length ≤ 3603 + align512 elf.length := by
    rw [List.length_append, length_wrapFront]
    omega
  obtain ⟨p, control, fields⟩ := parseControl_wrap w some_
  refine ⟨_, wrapped, by omega, p, fun fuel => ?_, fields⟩
  have unpacked := zstdUnpackRaw_wrap tzstMaxUnpacked (fuel + 4) whole (by omega) (by omega)
    (by omega) (by omega) (by omega)
  rw [archive] at unpacked
  rw [tzstParse, ok_bind unpacked]
  dsimp only
  rw [if_neg (by unfold tarBlock; omega), ok_bind (parseLoop_wrap w fuel)]
  dsimp only
  rw [if_neg (by decide), control]

/-- **Round trip.** A package of a program not called `..`, with a version that has no tab in
front, gives back its name and its version, and `data/bin/<name>` is the program and agrees
with the manifest. -/
theorem wrap_round_trip (elf name ver : Bytes) (cap : Nat)
    (small : elf.length ≤ tzstMaxUnpacked - 4096) (valid : validPkgName name = true)
    (real : name ≠ ascii "..") (some_ : ver ≠ []) (fits : ver.length < 32)
    (plain : ∀ b ∈ ver, b ≠ 0 ∧ b ≠ 32 ∧ isBreak b = false) (front : ver.head? ≠ some 9)
    (room : 3616 + align512 elf.length ≤ cap) :
    ∃ out, tzstWrapElf elf name (some ver) cap = .ok out ∧ out.length ≤ cap ∧
      ∃ p, (∀ fuel, 4 ≤ fuel → tzstParse fuel out = .ok (0, p)) ∧ p.pkg.atpk = true ∧
        p.pkg.packageName = name ∧ p.pkg.version = ver ∧
        ∃ e ∈ p.handed,
          (∀ e' ∈ p.handed, cstr (p.pkg.tar.drop e'.pos) = .ok (payloadPath name) ↔ e' = e) ∧
          bytesAt p.pkg.tar e.data e.size = .ok elf ∧
          ∀ fuel, 2 ≤ fuel →
            manifestCheck fuel p.pkg.tar (payloadPath name) e.data e.size = .ok true := by
  have w : Wrappable elf name ver :=
    ⟨valid, real, small, fits, fun b mem => ⟨(plain b mem).1, (plain b mem).2.2⟩⟩
  have trimmed : ver.dropWhile isBlank = ver := by
    cases ver with
    | nil => rfl
    | cons b ver =>
      have space := (plain b List.mem_cons_self).2.1
      have tab : b ≠ 9 := fun same => front (congrArg some same)
      rw [List.dropWhile_cons_of_neg]
      simp [isBlank, space, tab]
  obtain ⟨out, wrapped, within, p, parsed, archive, atpk, named, version, handed⟩ :=
    wrap_parses cap w (trimmed.symm ▸ some_) room
  obtain ⟨control, manifest, payload, -⟩ := wrapArchive_entries w
  rw [trimmed] at version
  have otherC : controlName ≠ payloadPath name := (payloadPath_other (by decide)).symm
  have otherM : manifestName ≠ payloadPath name := (payloadPath_other (by decide)).symm
  refine ⟨out, wrapped, within, p, fun fuel enough => ?_, atpk, named, version,
    ⟨2048, 2560, elf.length⟩, ?_, ?_, ?_, fun fuel enough => ?_⟩
  · obtain ⟨more, rfl⟩ := Nat.exists_eq_add_of_le' enough
    exact parsed more
  · rw [handed]
    simp [wrapHanded]
  · intro e' mem
    rw [handed, wrapHanded] at mem
    rw [archive]
    simp only [List.mem_cons, List.not_mem_nil, or_false] at mem
    rcases mem with rfl | rfl | rfl
    · rw [control.named]
      simp [otherC]
    · rw [manifest.named]
      simp [otherM]
    · rw [payload.named]
      simp
  · rw [archive]
    exact (manifestCheck_wrap w 0).1
  · obtain ⟨more, rfl⟩ := Nat.exists_eq_add_of_le' enough
    rw [archive]
    exact (manifestCheck_wrap w more).2

theorem wrap_round_trip_small : ∃ out,
    tzstWrapElf [127] (ascii "a") (some (ascii "1")) 5000 = .ok out ∧ out.length ≤ 5000 ∧
      ∃ p, (∀ fuel, 4 ≤ fuel → tzstParse fuel out = .ok (0, p)) ∧ p.pkg.atpk = true ∧
        p.pkg.packageName = ascii "a" ∧ p.pkg.version = ascii "1" ∧
        ∃ e ∈ p.handed,
          (∀ e' ∈ p.handed, cstr (p.pkg.tar.drop e'.pos) = .ok (payloadPath (ascii "a")) ↔
            e' = e) ∧
          bytesAt p.pkg.tar e.data e.size = .ok [127] ∧
          ∀ fuel, 2 ≤ fuel →
            manifestCheck fuel p.pkg.tar (payloadPath (ascii "a")) e.data e.size = .ok true :=
  wrap_round_trip [127] (ascii "a") (ascii "1") 5000 (by decide) (by decide) (by decide) (by decide)
    (by decide) (by decide) (by decide) (by decide)

/-- A path that is not safe ends the wrapping. -/
theorem tzstWrapElf_refuses {v : Option Bytes} {cap : Nat}
    (unsafe_ : tarSafeName (payloadPath name ++ [0]) ≠ .ok true) :
    ∃ code, tzstWrapElf elf name v cap = .error code := by
  have refused : ∀ tar pos, tarWriteFile tar tzstMaxUnpacked pos (payloadPath name) elf =
      (tar, 0) := fun tar pos => if_pos (.inr unsafe_)
  unfold tzstWrapElf
  split
  · exact ⟨-1, rfl⟩
  · simp only [refused, true_or, if_pos]
    split
    · exact ⟨-2, rfl⟩
    · split
      · exact ⟨-3, rfl⟩
      · exact ⟨-4, rfl⟩

/-- A program called `..` is not wrapped, and a tab in front of a version is lost. -/
theorem wrap_loses :
    (validPkgName (ascii "..") = true ∧
      ∀ cap, ∃ code, tzstWrapElf [127] (ascii "..") (some (ascii "1")) cap = .error code) ∧
    ∃ out p, tzstWrapElf [127] (ascii "a") (some (9 :: ascii "1")) 5000 = .ok out ∧
      (∀ fuel, tzstParse (fuel + 4) out = .ok (0, p)) ∧ p.pkg.version = ascii "1" := by
  have dots : tarSafeName (payloadPath (ascii "..") ++ [0]) = .ok false := by decide +kernel
  refine ⟨⟨by decide, fun cap => tzstWrapElf_refuses (by rw [dots]; decide)⟩, ?_⟩
  have w : Wrappable [127] (ascii "a") (9 :: ascii "1") :=
    ⟨by decide, by decide, by decide, by decide, by decide⟩
  obtain ⟨out, wrapped, -, p, parsed, -, -, -, version, -⟩ :=
    wrap_parses 5000 w (by decide) (by decide)
  exact ⟨out, p, wrapped, parsed, version.trans (by decide)⟩

end AtmKoala.Package
