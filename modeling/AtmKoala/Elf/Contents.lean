import AtmKoala.Elf.Rights
import AtmKoala.Paging.Frames

/-!
What a load reads and what it leaves in memory.

* `elf64LoadUser_total`: a load ends, and reads nothing outside the image.
* `NativeImage` are the images that can be accepted.
* `written_bytes`: the bytes of one segment; `applied` are those of all segments in header
  order.
* `load_user`: reads, refusals, and the memory of a load that is accepted.
-/

namespace AtmKoala.Elf

open Lib Paging

/-! ### What is expected -/

/-- The header of a native program, as `elf64_validate_native` checks it. -/
structure NativeHeader (h : Ehdr) : Prop where
  magic : h.ident.take 4 = [0x7F, 69, 76, 70]
  elf64 : h.ident.getD 4 0 = 2
  littleEndian : h.ident.getD 5 0 = 1
  version : h.ident.getD 6 0 = 1
  machine : h.machine = 62
  type : h.type = 2
  ehsize : h.ehsize = ehdrSize
  phentsize : h.phentsize = phdrSize
  phnum : 0 < h.phnum

/-- An image whose headers are well formed. -/
structure NativeImage (buf : Bytes) : Prop where
  size : ehdrSize ≤ buf.length
  header : NativeHeader (Ehdr.ofBytes (buf.take ehdrSize))
  table : (Ehdr.ofBytes (buf.take ehdrSize)).phoff +
    (Ehdr.ofBytes (buf.take ehdrSize)).phnum * phdrSize ≤ buf.length
  proper : ∀ p ∈ segments buf, p.Loads → p.Proper buf.length
  loads : ∃ p ∈ segments buf, p.Loads
  entry : atmUserBase ≤ (Ehdr.ofBytes (buf.take ehdrSize)).entry ∧
    (Ehdr.ofBytes (buf.take ehdrSize)).entry < atmUserStackTop

/-- The segment has a byte at `va`. -/
def Phdr.Covers (p : Phdr) (va : Nat) : Prop := p.Loads ∧ p.pVaddr ≤ va ∧ va < p.pVaddr + p.pMemsz

instance (p : Phdr) (va : Nat) : Decidable (p.Covers va) := inferInstanceAs (Decidable (_ ∧ _))

/-- The byte of the segment at `va`: a byte of the file, or zero. -/
def Phdr.byteAt (p : Phdr) (buf : Bytes) (va : Nat) : UInt8 :=
  if va - p.pVaddr < p.pFilesz then buf.getD (p.pOffset + (va - p.pVaddr)) 0 else 0

/-- The byte at `va` when the segments are applied one after the other. -/
def applied (buf : Bytes) (segs : List Phdr) (va : Nat) : Option UInt8 :=
  segs.foldl (fun byte p => if p.Covers va then some (p.byteAt buf va) else byte) none

variable {heap : Nat → Option Nat} {buf : Bytes} {p : Phdr} {l l' : Loading} {m m' : Space}
  {pages pages' : PageMap} {va n i phoff : Nat} {image : Image} {segs : List Phdr}

/-! ### Reads -/

theorem elf64LoadSegment_total (heap : Nat → Option Nat) (buf : Bytes) (p : Phdr) (l : Loading) :
    ∃ r, elf64LoadSegment heap buf p l = .ok r := by
  unfold elf64LoadSegment
  split
  · exact ⟨_, rfl⟩
  · split
    · exact ⟨_, rfl⟩
    · rename_i file
      rw [not_or, not_or] at file
      dsimp only
      split
      · exact ⟨_, rfl⟩
      · split
        · exact ⟨_, rfl⟩
        · have inside : p.pOffset + p.pFilesz ≤ buf.length := by omega
          rw [ok_bind (bytesAt_ok inside)]
          split
          · exact ⟨_, rfl⟩
          · split
            · exact ⟨_, rfl⟩
            · exact ⟨_, rfl⟩

theorem elf64LoadSegments_total (heap : Nat → Option Nat) (l : Loading)
    (inside : phoff + (i + n) * phdrSize ≤ buf.length) :
    ∃ r, elf64LoadSegments heap buf phoff n i l = .ok r := by
  induction n generalizing i l with
  | zero => exact ⟨_, rfl⟩
  | succ n ih =>
    unfold elf64LoadSegments
    have header : phoff + i * phdrSize + phdrSize ≤ buf.length := by
      unfold phdrSize at *
      omega
    obtain ⟨⟨l', message⟩, round⟩ := elf64LoadSegment_total heap buf
      (Phdr.ofBytes ((buf.drop (phoff + i * phdrSize)).take phdrSize)) l
    rw [ok_bind (bytesAt_ok header), ok_bind round]
    cases message with
    | some error => exact ⟨_, rfl⟩
    | none =>
      refine ih l' ?_
      rw [Nat.add_right_comm, Nat.add_assoc]
      exact inside

theorem elf64ValidateNative_total (buf : Bytes) :
    ∃ ok, elf64ValidateNative buf = .ok ok ∧
      (ok = true → ehdrSize ≤ buf.length ∧ NativeHeader (Ehdr.ofBytes (buf.take ehdrSize))) := by
  unfold elf64ValidateNative
  split
  · exact ⟨false, rfl, nofun⟩
  · rename_i long
    have inside : 0 + ehdrSize ≤ buf.length := by omega
    rw [ok_bind (bytesAt_ok inside)]
    refine ⟨_, rfl, fun valid => ⟨by omega, ?_⟩⟩
    obtain ⟨magic, elf64, little, version, machine, type, ehsize, phentsize, phnum⟩ := of_decide_eq_true valid
    exact ⟨magic, elf64, little, version, machine, type, ehsize, phentsize, phnum⟩

/-- **Reads.** A load ends, and no read is outside the image. -/
theorem elf64LoadUser_total (heap : Nat → Option Nat) (buf : Bytes) (m : Space) :
    ∃ r, elf64LoadUser heap buf m = .ok r := by
  unfold elf64LoadUser
  split
  · exact ⟨_, rfl⟩
  · obtain ⟨ok, valid, checked⟩ := elf64ValidateNative_total buf
    rw [ok_bind valid]
    split
    · exact ⟨_, rfl⟩
    · rename_i passed
      obtain ⟨long, -⟩ := checked (by simpa using passed)
      have inside : 0 + ehdrSize ≤ buf.length := by omega
      rw [ok_bind (bytesAt_ok inside)]
      dsimp only
      split
      · exact ⟨_, rfl⟩
      · rename_i table
        obtain ⟨⟨l, message⟩, looped⟩ := elf64LoadSegments_total heap
          ⟨m, 2 ^ 64 - 1, 0, 0⟩ (show (Ehdr.ofBytes ((buf.drop 0).take ehdrSize)).phoff +
            (0 + (Ehdr.ofBytes ((buf.drop 0).take ehdrSize)).phnum) * phdrSize ≤ buf.length by
              rw [Nat.zero_add]
              omega)
        rw [ok_bind looped]
        cases message with
        | some error => exact ⟨_, rfl⟩
        | none =>
          dsimp only
          split
          · exact ⟨_, rfl⟩
          · split
            · exact ⟨_, rfl⟩
            · exact ⟨_, rfl⟩

/-- The headers of an image that is accepted. -/
theorem elf64LoadUser_header (accepted : elf64LoadUser heap buf m = .ok (m', .ok image)) :
    ehdrSize ≤ buf.length ∧ NativeHeader (Ehdr.ofBytes (buf.take ehdrSize)) ∧
      (Ehdr.ofBytes (buf.take ehdrSize)).phoff + (Ehdr.ofBytes (buf.take ehdrSize)).phnum * phdrSize ≤
        buf.length := by
  unfold elf64LoadUser at accepted
  split at accepted
  · cases accepted
  · obtain ⟨ok, valid, checked⟩ := elf64ValidateNative_total buf
    rw [ok_bind valid] at accepted
    split at accepted
    · cases accepted
    · rename_i passed
      obtain ⟨long, header⟩ := checked (by simpa using passed)
      have inside : 0 + ehdrSize ≤ buf.length := by omega
      rw [ok_bind (bytesAt_ok inside)] at accepted
      dsimp only at accepted
      split at accepted
      · cases accepted
      · rename_i table
        rw [not_or, List.drop_zero] at table
        exact ⟨long, header, by omega⟩

/-- The segments of an image that is accepted. -/
theorem elf64LoadUser_segments (accepted : elf64LoadUser heap buf m = .ok (m', .ok image)) :
    ∀ p ∈ segments buf, p.Loads → p.Proper buf.length := by
  obtain ⟨l, rc, looped, -⟩ := elf64LoadUser_ok accepted
  refine loadSegments_rule (P := fun segs _ => ∀ p ∈ segs, p.Loads → p.Proper buf.length) [] looped nofun ?_
  intro segs p l l' vaddr_lt memsz_lt proper round q mem loads
  rcases List.mem_append.mp mem with old | new
  · exact proper q old loads
  · obtain rfl := List.mem_singleton.mp new
    rcases elf64LoadSegment_some vaddr_lt memsz_lt round with ⟨skips, -⟩ | ⟨-, proper', -⟩
    · exact absurd loads skips
    · exact proper'

theorem nativeImage_of_accepted (accepted : elf64LoadUser heap buf m = .ok (m', .ok image)) : NativeImage buf := by
  obtain ⟨size, header, table⟩ := elf64LoadUser_header accepted
  obtain ⟨-, ⟨p, mem, loads, -⟩, -⟩ := loadUser_extent accepted
  obtain ⟨l, rc, -, -, -, -, rfl, entry⟩ := elf64LoadUser_ok accepted
  exact ⟨size, header, table, elf64LoadUser_segments accepted, ⟨p, mem, loads⟩, entry⟩

/-! ### One segment -/

theorem Loaded.allMapped (loaded : Loaded p pages pages') (loads : p.Loads) :
    AllMapped pages' p.pVaddr p.pMemsz := by
  intro i less
  have overlaps : p.Overlaps (pageBase (p.pVaddr + i)) := by
    have split := pageBase_add (p.pVaddr + i)
    have offset := offset_lt (p.pVaddr + i)
    exact ⟨loads, by omega, by omega⟩
  cases was : pages (pageBase (p.pVaddr + i)) with
  | some x => exact ⟨x, loaded.kept _ x was⟩
  | none =>
    obtain ⟨f, new⟩ := loaded.new _ (pageBase_mod _) overlaps was
    exact ⟨_, new⟩

theorem getD_bytes (less : i < p.pFilesz) : (p.bytes buf).getD i 0 = buf.getD (p.pOffset + i) 0 := by
  unfold Phdr.bytes
  rw [List.getD_eq_getElem?_getD, List.getD_eq_getElem?_getD, List.getElem?_take_of_lt less, List.getElem?_drop]

/-- What the bytes of a segment are after they have been written. -/
theorem written_bytes (shows_ : Shows m.tables pages) (unrelated : Unrelated pages) (proper : p.Proper buf.length)
    (mapped : AllMapped pages p.pVaddr p.pMemsz) (va : Nat) :
    (p.written buf m).1.tables = m.tables ∧ (p.written buf m).1.asked = m.asked ∧
    userByte pages (p.written buf m).1.mem va =
      if p.pVaddr ≤ va ∧ va < p.pVaddr + p.pMemsz then some (p.byteAt buf va) else userByte pages m.mem va := by
  have filesz := proper.filesz
  have high := proper.high
  rw [stackTop_eq] at high
  have length : (p.bytes buf).length = p.pFilesz := by
    have := proper.offset
    unfold Phdr.bytes
    rw [List.length_take, List.length_drop]
    omega
  have front : AllMapped pages p.pVaddr p.pFilesz := fun i less => mapped i (by omega)
  have behind : AllMapped pages (p.pVaddr + p.pFilesz) (p.pMemsz - p.pFilesz) := by
    intro i less
    rw [Nat.add_assoc]
    exact mapped _ (by omega)
  unfold Phdr.written elf64ZeroMapped elf64CopyToMapped
  rw [length, Nat.mod_eq_of_lt (by omega : p.pVaddr + p.pFilesz < 2 ^ 64)]
  obtain ⟨-, copied⟩ := @storeMapped_spec _ _ (fun i => (p.bytes buf).getD i 0) _ 0 _ _ m.mem
    shows_ unrelated front (Nat.le_refl _)
  generalize storeMapped m.tables (fun i => (p.bytes buf).getD i 0) p.pFilesz m.mem p.pVaddr 0 p.pFilesz = copy
    at copied
  obtain ⟨mem, rc⟩ := copy
  dsimp only at copied ⊢
  obtain ⟨-, zeroed⟩ := @storeMapped_spec _ _ (fun _ => 0) _ 0 _ _ mem shows_ unrelated behind (Nat.le_refl _)
  generalize storeMapped m.tables (fun _ => 0) (p.pMemsz - p.pFilesz) mem (p.pVaddr + p.pFilesz) 0
    (p.pMemsz - p.pFilesz) = zero at zeroed
  obtain ⟨mem', rc'⟩ := zero
  refine ⟨rfl, rfl, ?_⟩
  obtain ⟨file, kept⟩ := copied.userByte shows_ unrelated front
  obtain ⟨zeros, kept'⟩ := zeroed.userByte shows_ unrelated behind
  dsimp only at file kept zeros kept' ⊢
  unfold Phdr.byteAt
  split
  · rename_i inside
    split
    · rename_i fromFile
      have byte := file _ fromFile
      rw [Nat.add_sub_cancel' inside.1, Nat.zero_add, getD_bytes fromFile] at byte
      rw [kept' va (by omega), byte]
    · have byte := zeros (va - (p.pVaddr + p.pFilesz)) (by omega)
      rwa [Nat.add_sub_cancel' (by omega)] at byte
  · rename_i outside
    rw [kept' va (by omega), kept va (by omega)]

/-! ### All segments -/

/-- The pages and the bytes after some of the segments. -/
def Holds (heap : Nat → Option Nat) (buf : Bytes) (segs : List Phdr) (l : Loading) : Prop :=
  ∃ pages, Shows l.space.tables pages ∧ FramesOf heap l.space.asked pages ∧
    ∀ va b, applied buf segs va = some b → userByte pages l.space.mem va = some b

theorem userByte_kept {mem : Memory} {b : UInt8} (kept : ∀ a x, pages a = some x → pages' a = some x)
    (byte : userByte pages mem va = some b) : userByte pages' mem va = some b := by
  unfold userByte at byte ⊢
  obtain ⟨x, there, rfl⟩ := Option.map_eq_some_iff.mp byte
  rw [kept _ x there]
  rfl

/-- **Step lemma.** -/
theorem Holds.step (fresh : FreshPages heap) (vaddr_lt : p.pVaddr < 2 ^ 64) (memsz_lt : p.pMemsz < 2 ^ 64)
    (holds : Holds heap buf segs l) (round : elf64LoadSegment heap buf p l = .ok (l', none)) :
    Holds heap buf (segs ++ [p]) l' := by
  obtain ⟨pages, shows_, frames, bytes⟩ := holds
  unfold Holds applied
  simp only [List.foldl_append, List.foldl_cons, List.foldl_nil]
  rcases elf64LoadSegment_some vaddr_lt memsz_lt round with ⟨skips, rfl⟩ | ⟨loads, proper, m, mapped, -, -, rfl⟩
  · refine ⟨pages, shows_, frames, fun va b byte => bytes va b ?_⟩
    rwa [if_neg fun covers => skips covers.1] at byte
  · obtain ⟨pages', shown, loaded⟩ := map_segment proper loads shows_ mapped
    have inside : ∀ k < p.pageCount, userWindow (pageMask p.pVaddr + k * atmPageSize) = true := by
      intro k less
      obtain ⟨aligned, overlaps⟩ := (segment_pages proper loads).mp ⟨k, less, rfl⟩
      exact (proper.page aligned overlaps).1
    have done : overPages (mapPage heap false true (p.asks pfW) (!p.asks pfX)) p.pageCount (pageMask p.pVaddr)
        l.space = (m, none) := mapped
    have mem : (overPages (mapPage heap false true (p.asks pfW) (!p.asks pfX)) p.pageCount (pageMask p.pVaddr)
        l.space).1.mem = l.space.mem := overPages_mem (pageMask_mod p.pVaddr) inside shows_
    obtain ⟨pages₂, shown₂, frames'⟩ := overPages_frames false true (p.asks pfW) (!p.asks pfX) fresh
      (pageMask_mod p.pVaddr) inside shows_ frames
    rw [done] at shown₂ frames' mem
    obtain rfl := shown.unique shown₂
    have written := written_bytes shown frames'.unrelated proper (loaded.allMapped loads)
    refine ⟨pages', ?_, ?_, fun va b byte => ?_⟩
    · unfold Phdr.after
      rw [(written 0).1]
      exact shown
    · unfold Phdr.after
      rw [(written 0).2.1]
      exact frames'
    · unfold Phdr.after
      dsimp only
      rw [(written va).2.2]
      split at byte
      · rename_i covers
        rw [if_pos covers.2, byte]
      · rename_i other
        rw [if_neg fun inside => other ⟨loads, inside⟩, mem]
        exact userByte_kept loaded.kept (bytes va b byte)

theorem applied_append (buf : Bytes) (segs : List Phdr) (p : Phdr) (va : Nat) :
    applied buf (segs ++ [p]) va = if p.Covers va then some (p.byteAt buf va) else applied buf segs va := by
  unfold applied
  rw [List.foldl_append]
  rfl

theorem applied_some (covered : ∃ p ∈ segs, p.Covers va) : ∃ b, applied buf segs va = some b := by
  induction segs using List.reverseRecOn with
  | nil =>
    obtain ⟨p, mem, -⟩ := covered
    cases mem
  | append_singleton segs p ih =>
    rw [applied_append]
    split
    · exact ⟨_, rfl⟩
    · rename_i other
      obtain ⟨q, mem, covers⟩ := covered
      rcases List.mem_append.mp mem with old | new
      · exact ih ⟨q, old, covers⟩
      · exact absurd (List.mem_singleton.mp new ▸ covers) other

/-- The stack page is no page of a segment, and is not written. -/
theorem mapStack_kept (shows_ : Shows m.tables pages) {rc : Int}
    (done : elf64MapPage heap true false m atmUserStackTop = (m', rc)) :
    ∃ pages', Shows m'.tables pages' ∧ (∀ a x, pages a = some x → pages' a = some x) ∧ m'.mem = m.mem := by
  have inside : userWindow atmUserStackTop = true := by decide
  obtain ⟨pages', shown, placed⟩ := mapPage_spec heap false true true true shows_ inside rfl
  have same : mapPage heap false true true true m atmUserStackTop = (m', rc) := done
  rw [same] at shown placed
  cases placed with
  | kept => exact ⟨pages, shown, fun _ _ there => there, rfl⟩
  | mapped free granted mem =>
    refine ⟨_, shown, fun a x there => ?_, mem⟩
    rw [Function.update_of_ne]
    · exact there
    · rintro rfl
      cases (free rfl).symm.trans there
  | refused free asked most ranOut mem =>
    refine ⟨pages, shown, fun _ _ there => there, ?_⟩
    rcases mem with mem | ⟨page, granted, cleared, mem⟩
    · exact mem
    · cases cleared

/-- The bytes of a load that is accepted. -/
theorem loadUser_bytes (unmapped : Shows m.tables fun _ => none) (fresh : FreshPages heap)
    (accepted : elf64LoadUser heap buf m = .ok (m', .ok image)) :
    ∃ pages, Shows m'.tables pages ∧ ∀ va, (∃ p ∈ segments buf, p.Covers va) →
      userByte pages m'.mem va = applied buf (segments buf) va := by
  obtain ⟨l, rc, looped, -, stack, -⟩ := elf64LoadUser_ok accepted
  obtain ⟨pages, shows_, -, bytes⟩ : Holds heap buf (segments buf) l :=
    loadSegments_rule [] looped ⟨_, unmapped, .nothing _ _, nofun⟩
      fun segs p l l' vaddr_lt memsz_lt holds round => holds.step fresh vaddr_lt memsz_lt round
  obtain ⟨pages', shown, kept, mem⟩ := mapStack_kept shows_ stack
  refine ⟨pages', shown, fun va covered => ?_⟩
  obtain ⟨b, byte⟩ := applied_some covered
  rw [mem, byte]
  exact userByte_kept kept (bytes va b byte)

/-- **Loader.** A load ends and reads nothing outside the image; images whose headers are not
well formed are refused. After a load that is accepted every segment lies in the window below
the stack page, the memory holds the segments one applied after the other, and first and last
address are those of the segments. -/
theorem load_user (heap : Nat → Option Nat) (buf : Bytes) (m : Space) :
    (∃ m' r, elf64LoadUser heap buf m = .ok (m', r) ∧ (¬NativeImage buf → ∃ message, r = .error message)) ∧
    (Shows m.tables (fun _ => none) → FreshPages heap →
      ∀ m' image, elf64LoadUser heap buf m = .ok (m', .ok image) →
        (∀ p ∈ segments buf, p.Loads → atmUserBase ≤ p.pVaddr ∧ p.pVaddr + p.pMemsz ≤ atmUserStackTop ∧
          image.loadBase ≤ p.pVaddr ∧ p.pVaddr + p.pMemsz ≤ image.loadEnd) ∧
        (∃ p ∈ segments buf, p.Loads ∧ image.loadBase = p.pVaddr) ∧
        (∃ p ∈ segments buf, p.Loads ∧ image.loadEnd = p.pVaddr + p.pMemsz) ∧
        ∃ pages, Shows m'.tables pages ∧ ∀ va, (∃ p ∈ segments buf, p.Covers va) →
          userByte pages m'.mem va = applied buf (segments buf) va) := by
  refine ⟨?_, fun unmapped fresh m' image accepted => ?_⟩
  · obtain ⟨⟨m', r⟩, done⟩ := elf64LoadUser_total heap buf m
    refine ⟨m', r, done, fun malformed => ?_⟩
    cases r with
    | error message => exact ⟨message, rfl⟩
    | ok image => exact absurd (nativeImage_of_accepted done) malformed
  · obtain ⟨extent, first, last⟩ := loadUser_extent accepted
    refine ⟨fun p mem loads => ?_, first, last, loadUser_bytes unmapped fresh accepted⟩
    have proper := elf64LoadUser_segments accepted p mem loads
    exact ⟨proper.low, proper.high, extent p mem loads⟩

/-- The heap of the tests gives every page once. -/
theorem freshPages_pagesFrom {start count : Nat} (aligned : start % atmPageSize = 0)
    (below : start + count * atmPageSize ≤ 2 ^ 52) : FreshPages (pagesFrom start count) := by
  refine ⟨pagesFrom_frames aligned below, fun i j page given given' => ?_⟩
  unfold pagesFrom at given given'
  split at given
  · split at given'
    · have same := Option.some.inj (given.trans given'.symm)
      unfold atmPageSize at same
      omega
    · cases given'
  · cases given

/-- The loader ends with an image. -/
def loads (r : Access (Space × Except String Image)) : Bool :=
  match r with
  | .ok (_, .ok _) => true
  | _ => false

/-- Zeros are loaded at the start of a page. -/
theorem load_user_one :
    ∃ m' image pages, elf64LoadUser (pagesFrom 0x800000 16) codeOnly newSpace = .ok (m', .ok image) ∧
      Shows m'.tables pages ∧ userByte pages m'.mem 0x40000005 = some 0 := by
  have done : loads (elf64LoadUser (pagesFrom 0x800000 16) codeOnly newSpace) = true := by
    decide +kernel
  have covered : ∃ p ∈ segments codeOnly, p.Covers 0x40000005 := by decide
  have byte : applied codeOnly (segments codeOnly) 0x40000005 = some 0 := by decide
  unfold loads at done
  split at done
  · rename_i m' image accepted
    obtain ⟨-, -, -, pages, shown, bytes⟩ := (load_user (pagesFrom 0x800000 16) codeOnly newSpace).2 newSpace_shows
      (freshPages_pagesFrom (by decide) (by decide)) m' image accepted
    exact ⟨m', image, pages, accepted, shown, (bytes _ covered).trans byte⟩
  · cases done

end AtmKoala.Elf
