import AtmKoala.Elf.Model

/-!
What an image that is accepted does to the pages.

* `segments` are the program headers of an image.
* `elf64LoadSegment_some` takes one round of the loop apart that does not fail, and
  `elf64LoadUser_ok` a load.
* `loadSegments_rule`: what every round keeps holds at the end of the loop.
* `segment_pages`: the pages that a round visits are those the segment overlaps.
* `loadUser_extent`: first and last byte of the segments.
-/

namespace AtmKoala.Elf

open Lib Paging

/-- The program headers, `n` of them from the `i`-th on. -/
def phdrsFrom (buf : Bytes) (phoff : Nat) : Nat → Nat → List Phdr
  | 0, _ => []
  | n + 1, i =>
    Phdr.ofBytes ((buf.drop (phoff + i * phdrSize)).take phdrSize) :: phdrsFrom buf phoff n (i + 1)

/-- The program headers of an image. -/
def segments (buf : Bytes) : List Phdr :=
  let h := Ehdr.ofBytes (buf.take ehdrSize)
  phdrsFrom buf h.phoff h.phnum 0

/-- The segment is loaded and has bytes. -/
def Phdr.Loads (p : Phdr) : Prop := p.pType = ptLoad ∧ p.pMemsz ≠ 0

instance (p : Phdr) : Decidable p.Loads := inferInstanceAs (Decidable (_ ∧ _))

/-- The segment has bytes in the page at `va`. -/
def Phdr.Overlaps (p : Phdr) (va : Nat) : Prop :=
  p.Loads ∧ p.pVaddr < va + atmPageSize ∧ va < p.pVaddr + p.pMemsz

instance (p : Phdr) (va : Nat) : Decidable (p.Overlaps va) := inferInstanceAs (Decidable (_ ∧ _))

/-- The segment is in the file and in the window, below the stack. -/
structure Phdr.Proper (p : Phdr) (size : Nat) : Prop where
  filesz : p.pFilesz ≤ p.pMemsz
  offset : p.pOffset + p.pFilesz ≤ size
  low : atmUserBase ≤ p.pVaddr
  high : p.pVaddr + p.pMemsz ≤ atmUserStackTop

/-- The number of pages that the segment overlaps. -/
def Phdr.pageCount (p : Phdr) : Nat :=
  (pageMask ((p.pVaddr + p.pMemsz) % 2 ^ 64 - 1) - pageMask p.pVaddr) / atmPageSize + 1

variable {heap : Nat → Option Nat} {buf : Bytes} {p : Phdr} {l l' : Loading} {m m' : Space}
  {pages pages' : PageMap} {va n i phoff : Nat} {image : Image}

/-! ### The pages of a segment -/

theorem Phdr.Proper.window (proper : p.Proper n) (lower : p.pVaddr ≤ va) (upper : va < p.pVaddr + p.pMemsz) :
    userWindow va = true := by
  have low := proper.low
  have high := proper.high
  rw [window_iff]
  unfold atmUserBase at low
  rw [stackTop_eq] at high
  omega

/-- First and last page of a segment. -/
theorem Phdr.Proper.ends (proper : p.Proper n) (loads : p.Loads) :
    pageMask p.pVaddr = pageBase p.pVaddr ∧
      pageMask ((p.pVaddr + p.pMemsz) % 2 ^ 64 - 1) = pageBase (p.pVaddr + p.pMemsz - 1) ∧
      pageBase p.pVaddr ≤ pageBase (p.pVaddr + p.pMemsz - 1) := by
  have some_ := loads.2
  have high := proper.high
  rw [stackTop_eq] at high
  have below : p.pVaddr + p.pMemsz < 2 ^ 64 := by omega
  refine ⟨pageMask_eq (proper.window (Nat.le_refl _) (by omega)), ?_, ?_⟩
  · rw [Nat.mod_eq_of_lt below]
    exact pageMask_eq (proper.window (by omega) (by omega))
  · exact Nat.mul_le_mul_right _ (Nat.div_le_div_right (by omega))

/-- **The pages visited** are those that the segment overlaps. -/
theorem segment_pages (proper : p.Proper n) (loads : p.Loads) :
    (∃ k < p.pageCount, va = pageMask p.pVaddr + k * atmPageSize) ↔ va % atmPageSize = 0 ∧ p.Overlaps va := by
  obtain ⟨first, last, le⟩ := proper.ends loads
  have some_ := loads.2
  unfold Phdr.pageCount Phdr.Overlaps
  rw [last, first, and_iff_right loads]
  unfold pageBase atmPageSize at *
  constructor
  · rintro ⟨k, less, rfl⟩
    omega
  · rintro ⟨aligned, lower, upper⟩
    exact ⟨va / 0x1000 - p.pVaddr / 0x1000, by omega, by omega⟩

/-- The pages of a segment are in the window, below the stack page. -/
theorem Phdr.Proper.page (proper : p.Proper n) (aligned : va % atmPageSize = 0) (overlaps : p.Overlaps va) :
    userWindow va = true ∧ va < atmUserStackTop := by
  obtain ⟨loads, lower, upper⟩ := overlaps
  have low := proper.low
  have high := proper.high
  rw [window_iff]
  rw [stackTop_eq] at *
  unfold atmUserBase atmPageSize at *
  omega

/-! ### One segment -/

/-- The bytes of a segment in the file. -/
def Phdr.bytes (p : Phdr) (buf : Bytes) : Bytes := (buf.drop p.pOffset).take p.pFilesz

/-- What is written to the pages of a segment. -/
def Phdr.written (p : Phdr) (buf : Bytes) (m : Space) : Space × Int :=
  elf64ZeroMapped (elf64CopyToMapped m p.pVaddr (p.bytes buf)).1 ((p.pVaddr + p.pFilesz) % 2 ^ 64)
    (p.pMemsz - p.pFilesz)

/-- The variables after a segment that was loaded. -/
def Phdr.after (p : Phdr) (l : Loading) (m : Space) : Loading where
  space := m
  base := if p.pVaddr < l.base then p.pVaddr else l.base
  end_ := if l.end_ < p.pVaddr + p.pMemsz then p.pVaddr + p.pMemsz else l.end_
  loads := l.loads + 1

/-- The tests of a segment. -/
theorem proper_of_tests (loads : p.Loads)
    (file : ¬(p.pMemsz < p.pFilesz ∨ buf.length < p.pOffset ∨ buf.length - p.pOffset < p.pFilesz))
    (window : ¬((p.pVaddr + p.pMemsz) % 2 ^ 64 < p.pVaddr ∨ p.pVaddr < atmUserBase ∨
      atmUserStackTop < (p.pVaddr + p.pMemsz) % 2 ^ 64))
    (vaddr_lt : p.pVaddr < 2 ^ 64) (memsz_lt : p.pMemsz < 2 ^ 64) :
    p.Proper buf.length ∧ (p.pVaddr + p.pMemsz) % 2 ^ 64 = p.pVaddr + p.pMemsz := by
  have some_ := loads.2
  rw [not_or, not_or] at file window
  have whole : (p.pVaddr + p.pMemsz) % 2 ^ 64 = p.pVaddr + p.pMemsz := by omega
  rw [whole] at window
  exact ⟨⟨by omega, by omega, by omega, by omega⟩, whole⟩

/-- A round that does not fail skips the header, or maps the pages of the segment and writes
its bytes. -/
theorem elf64LoadSegment_some (vaddr_lt : p.pVaddr < 2 ^ 64) (memsz_lt : p.pMemsz < 2 ^ 64)
    (done : elf64LoadSegment heap buf p l = .ok (l', none)) :
    ¬p.Loads ∧ l' = l ∨
    p.Loads ∧ p.Proper buf.length ∧ ∃ m,
      overPages (elf64MapPage heap (p.asks pfW) (p.asks pfX)) p.pageCount (pageMask p.pVaddr) l.space =
        (m, none) ∧
      ¬(elf64CopyToMapped m p.pVaddr (p.bytes buf)).2 < 0 ∧ ¬(p.written buf m).2 < 0 ∧
      l' = p.after l (p.written buf m).1 := by
  unfold elf64LoadSegment at done
  split at done
  · rename_i skips
    have same := Except.ok.inj done
    refine .inl ⟨fun loads => ?_, (Prod.mk.inj same).1.symm⟩
    exact skips.elim (fun other => other loads.1) loads.2
  · rename_i loads
    rw [not_or, not_not] at loads
    have loads : p.Loads := loads
    split at done
    · cases done
    · rename_i file
      dsimp only at done
      split at done
      · cases done
      · rename_i window
        obtain ⟨proper, whole⟩ := proper_of_tests loads file window vaddr_lt memsz_lt
        refine .inr ⟨loads, proper, ?_⟩
        split at done
        · cases done
        · rename_i m mapped
          have inside := proper.offset
          rw [ok_bind (bytesAt_ok inside)] at done
          split at done
          · cases done
          · rename_i copyOk
            split at done
            · cases done
            · rename_i zeroOk
              refine ⟨m, mapped, copyOk, zeroOk, ?_⟩
              unfold Phdr.after
              rw [← whole]
              exact (Prod.mk.inj (Except.ok.inj done)).1.symm

/-- The pages after a segment: those it overlaps got frames if they had none. -/
structure Loaded (p : Phdr) (pages pages' : PageMap) : Prop where
  kept : ∀ a x, pages a = some x → pages' a = some x
  new : ∀ a, a % atmPageSize = 0 → p.Overlaps a → pages a = none →
    ∃ f, pages' a = some ⟨f, p.asks pfW, !p.asks pfX⟩
  others : ∀ a, ¬(a % atmPageSize = 0 ∧ p.Overlaps a) → pages' a = pages a

theorem loaded_of_filled (proper : p.Proper n) (loads : p.Loads)
    (filled : Filled (p.asks pfW) (!p.asks pfX) (pageMask p.pVaddr) p.pageCount pages pages') :
    Loaded p pages pages' := by
  refine ⟨filled.kept, fun a aligned overlaps none_ => ?_, fun a other => ?_⟩
  · obtain ⟨k, less, rfl⟩ := (segment_pages proper loads).mpr ⟨aligned, overlaps⟩
    exact filled.new k less none_
  · exact filled.others a fun k less same => other ((segment_pages proper loads).mp ⟨k, less, same⟩)

/-- The loop over the pages of a segment. -/
theorem map_segment (proper : p.Proper n) (loads : p.Loads) (shows_ : Shows m.tables pages)
    (done : overPages (elf64MapPage heap (p.asks pfW) (p.asks pfX)) p.pageCount (pageMask p.pVaddr) m =
      (m', none)) :
    ∃ pages', Shows m'.tables pages' ∧ Loaded p pages pages' := by
  have inside : ∀ k < p.pageCount, userWindow (pageMask p.pVaddr + k * atmPageSize) = true := by
    intro k less
    obtain ⟨aligned, overlaps⟩ := (segment_pages proper loads).mp ⟨k, less, rfl⟩
    exact (proper.page aligned overlaps).1
  obtain ⟨k, m₁, pages', shown, filled, -, rest⟩ := overPages_spec heap false true
    (p.asks pfW) (!p.asks pfX) (pageMask_mod p.pVaddr) inside shows_
    (.inl rfl)
  rcases rest with ⟨eq, rfl, -⟩ | ⟨eq, -⟩
  · obtain ⟨rfl, -⟩ := Prod.mk.inj (eq.symm.trans done)
    exact ⟨pages', shown, loaded_of_filled proper loads filled⟩
  · cases (Prod.mk.inj (eq.symm.trans done)).2

/-- **One segment.** -/
theorem loadSegment_pages (vaddr_lt : p.pVaddr < 2 ^ 64) (memsz_lt : p.pMemsz < 2 ^ 64)
    (shows_ : Shows l.space.tables pages) (done : elf64LoadSegment heap buf p l = .ok (l', none)) :
    (p.Loads → p.Proper buf.length) ∧ ∃ pages', Shows l'.space.tables pages' ∧ Loaded p pages pages' := by
  rcases elf64LoadSegment_some vaddr_lt memsz_lt done with ⟨skips, rfl⟩ | ⟨loads, proper, m, mapped, -, -, eq⟩
  · exact ⟨fun loads => absurd loads skips, pages, shows_, fun _ _ there => there,
      fun _ _ overlaps => absurd overlaps.1 skips, fun _ _ => rfl⟩
  · obtain ⟨pages', shown, loaded⟩ := map_segment proper loads shows_ mapped
    rw [eq]
    exact ⟨fun _ => proper, pages', shown, loaded⟩

/-! ### All segments -/

theorem field_lt (bs : Bytes) (off n : Nat) : field bs off n < 256 ^ n :=
  (leNat_lt _).trans_le (Nat.pow_le_pow_right (by decide) (List.length_take_le n _))

/-- **Loop rule** for the program headers. -/
theorem loadSegments_rule {P : List Phdr → Loading → Prop} (before : List Phdr)
    (done : elf64LoadSegments heap buf phoff n i l = .ok (l', none)) (init : P before l)
    (step : ∀ before p l l', p.pVaddr < 2 ^ 64 → p.pMemsz < 2 ^ 64 → P before l →
      elf64LoadSegment heap buf p l = .ok (l', none) → P (before ++ [p]) l') :
    P (before ++ phdrsFrom buf phoff n i) l' := by
  induction n generalizing i l before with
  | zero =>
    obtain ⟨rfl, -⟩ := Prod.mk.inj (Except.ok.inj done)
    rw [phdrsFrom, List.append_nil]
    exact init
  | succ n ih =>
    unfold elf64LoadSegments at done
    obtain ⟨bs, read, done⟩ := bind_ok.mp done
    obtain ⟨⟨l₁, message⟩, round, done⟩ := bind_ok.mp done
    have same : bs = (buf.drop (phoff + i * phdrSize)).take phdrSize := by
      unfold bytesAt at read
      split at read
      · exact (Except.ok.inj read).symm
      · cases read
    cases message with
    | some error => cases done
    | none =>
      have first := step before _ l l₁ (field_lt bs 16 8) (field_lt bs 40 8) init round
      have rest := ih _ done first
      rw [List.append_assoc, List.singleton_append, same] at rest
      exact rest

/-- A load that is accepted. -/
theorem elf64LoadUser_ok (accepted : elf64LoadUser heap buf m = .ok (m', .ok image)) :
    ∃ l rc, elf64LoadSegments heap buf (Ehdr.ofBytes (buf.take ehdrSize)).phoff
        (Ehdr.ofBytes (buf.take ehdrSize)).phnum 0 ⟨m, 2 ^ 64 - 1, 0, 0⟩ = .ok (l, none) ∧
      l.loads ≠ 0 ∧ elf64MapPage heap true false l.space atmUserStackTop = (m', rc) ∧ ¬rc < 0 ∧
      image = ⟨(Ehdr.ofBytes (buf.take ehdrSize)).entry, l.base, l.end_, atmUserStackTop + atmPageSize⟩ ∧
      atmUserBase ≤ image.entry ∧ image.entry < atmUserStackTop := by
  unfold elf64LoadUser at accepted
  split at accepted
  · cases accepted
  · obtain ⟨ok, valid, accepted⟩ := bind_ok.mp accepted
    split at accepted
    · cases accepted
    · obtain ⟨bs, read, accepted⟩ := bind_ok.mp accepted
      have same : bs = buf.take ehdrSize := by
        unfold bytesAt at read
        split at read
        · exact (Except.ok.inj read).symm
        · cases read
      subst same
      dsimp only at accepted
      split at accepted
      · cases accepted
      · obtain ⟨⟨l, message⟩, looped, accepted⟩ := bind_ok.mp accepted
        cases message with
        | some error => cases accepted
        | none =>
          dsimp only at accepted
          split at accepted
          · cases accepted
          · rename_i entry
            rw [not_or, not_or] at entry
            split at accepted
            · cases accepted
            · rename_i mapped
              obtain ⟨rfl, rfl⟩ := Prod.mk.inj (Except.ok.inj accepted) |>.imp_right Except.ok.inj
              exact ⟨l, _, looped, entry.1, rfl, mapped, rfl, by dsimp only; omega, by dsimp only; omega⟩

/-- First and last byte of the segments, as the loop keeps them. -/
structure Extent (segs : List Phdr) (l : Loading) : Prop where
  lower : ∀ p ∈ segs, p.Loads → l.base ≤ p.pVaddr
  upper : ∀ p ∈ segs, p.Loads → p.pVaddr + p.pMemsz ≤ l.end_
  first : l.loads ≠ 0 → ∃ p ∈ segs, p.Loads ∧ l.base = p.pVaddr
  last : l.loads ≠ 0 → ∃ p ∈ segs, p.Loads ∧ l.end_ = p.pVaddr + p.pMemsz
  start : l.loads = 0 → l.base = 2 ^ 64 - 1 ∧ l.end_ = 0

theorem Extent.skip {segs : List Phdr} (extent : Extent segs l) (skips : ¬p.Loads) : Extent (segs ++ [p]) l := by
  have old : ∀ q ∈ segs ++ [p], q.Loads → q ∈ segs := by
    intro q mem loads
    rcases List.mem_append.mp mem with there | new
    · exact there
    · exact absurd (List.mem_singleton.mp new ▸ loads) skips
  refine ⟨fun q mem loads => extent.lower q (old q mem loads) loads,
    fun q mem loads => extent.upper q (old q mem loads) loads, fun some_ => ?_, fun some_ => ?_, extent.start⟩
  · obtain ⟨q, mem, rest⟩ := extent.first some_
    exact ⟨q, List.mem_append_left _ mem, rest⟩
  · obtain ⟨q, mem, rest⟩ := extent.last some_
    exact ⟨q, List.mem_append_left _ mem, rest⟩

theorem Extent.after {segs : List Phdr} (extent : Extent segs l) (loads : p.Loads) (vaddr_lt : p.pVaddr < 2 ^ 64)
    (m : Space) : Extent (segs ++ [p]) (p.after l m) := by
  have here : p ∈ segs ++ [p] := List.mem_append_right _ (List.mem_singleton_self p)
  unfold Phdr.after
  refine ⟨fun q mem loads' => ?_, fun q mem loads' => ?_, fun _ => ?_, fun _ => ?_,
    fun none_ => absurd none_ (Nat.succ_ne_zero _)⟩
  · dsimp only
    rcases List.mem_append.mp mem with old | new
    · have := extent.lower q old loads'
      split <;> omega
    · obtain rfl := List.mem_singleton.mp new
      split <;> omega
  · dsimp only
    rcases List.mem_append.mp mem with old | new
    · have := extent.upper q old loads'
      split <;> omega
    · obtain rfl := List.mem_singleton.mp new
      split <;> omega
  · dsimp only
    split
    · exact ⟨p, here, loads, rfl⟩
    · rename_i above
      by_cases none_ : l.loads = 0
      · have := (extent.start none_).1
        exact ⟨p, here, loads, by omega⟩
      · obtain ⟨q, mem, rest⟩ := extent.first none_
        exact ⟨q, List.mem_append_left _ mem, rest⟩
  · dsimp only
    split
    · exact ⟨p, here, loads, rfl⟩
    · rename_i below
      by_cases none_ : l.loads = 0
      · have := (extent.start none_).2
        exact ⟨p, here, loads, by omega⟩
      · obtain ⟨q, mem, rest⟩ := extent.last none_
        exact ⟨q, List.mem_append_left _ mem, rest⟩

/-- **Extent of an image.** -/
theorem loadUser_extent (accepted : elf64LoadUser heap buf m = .ok (m', .ok image)) :
    (∀ p ∈ segments buf, p.Loads → image.loadBase ≤ p.pVaddr ∧ p.pVaddr + p.pMemsz ≤ image.loadEnd) ∧
    (∃ p ∈ segments buf, p.Loads ∧ image.loadBase = p.pVaddr) ∧
    ∃ p ∈ segments buf, p.Loads ∧ image.loadEnd = p.pVaddr + p.pMemsz := by
  obtain ⟨l, rc, looped, some_, -, -, rfl, -⟩ := elf64LoadUser_ok accepted
  have extent : Extent (segments buf) l := loadSegments_rule [] looped
    ⟨nofun, nofun, fun some_ => absurd rfl some_, fun some_ => absurd rfl some_, fun _ => ⟨rfl, rfl⟩⟩ (by
      intro before p l l' vaddr_lt memsz_lt extent round
      rcases elf64LoadSegment_some vaddr_lt memsz_lt round with ⟨skips, rfl⟩ | ⟨loads, -, m, -, -, -, rfl⟩
      · exact extent.skip skips
      · exact extent.after loads vaddr_lt _)
  exact ⟨fun p mem loads => ⟨extent.lower p mem loads, extent.upper p mem loads⟩, extent.first some_,
    extent.last some_⟩

end AtmKoala.Elf
