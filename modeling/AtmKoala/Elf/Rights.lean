import AtmKoala.Elf.Segments

/-!
The rights of the pages of a loaded image.

A page gets its rights when it is first mapped, that is from the first segment in header
order that has bytes in it; later segments on the same page change nothing.

* `FromFirst` says so, and `loadUser_pages` that it is what a load does.
* `load_rights`: the rights are those the segments ask for together exactly if, on every
  page, the first segment asks for all of them.
-/

namespace AtmKoala.Elf

open Lib Paging

/-- The first segment with bytes in the page at `va`. -/
def firstOn (segs : List Phdr) (va : Nat) : Option Phdr := segs.find? fun p => p.Overlaps va

/-- The pages are those of the segments, each with the rights of the first one on it. -/
def FromFirst (segs : List Phdr) (pages : PageMap) : Prop :=
  ∀ va, va % atmPageSize = 0 →
    match firstOn segs va with
    | none => pages va = none
    | some p => ∃ f, pages va = some ⟨f, p.asks pfW, !p.asks pfX⟩

/-! ### What is expected -/

/-- Every page with bytes of a segment is mapped, writable just if one of the segments on it
asks for that, and executable just if one of them asks for that. -/
def JoinedRights (segs : List Phdr) (s : UserSpace) : Prop :=
  ∀ va, va % atmPageSize = 0 → (∃ p ∈ segs, p.Overlaps va) →
    ∃ phys e, pagingUserTranslate s va = some (phys, e) ∧
      (e.writable = true ↔ ∃ p ∈ segs, p.Overlaps va ∧ p.asks pfW = true) ∧
      (e.noExec = false ↔ ∃ p ∈ segs, p.Overlaps va ∧ p.asks pfX = true)

/-- On every page the first segment asks for whatever a later one asks for. -/
def FirstAsks (segs : List Phdr) : Prop :=
  ∀ va, va % atmPageSize = 0 → ∀ p, firstOn segs va = some p → ∀ q ∈ segs, q.Overlaps va →
    (q.asks pfW = true → p.asks pfW = true) ∧ (q.asks pfX = true → p.asks pfX = true)

variable {heap : Nat → Option Nat} {buf : Bytes} {p : Phdr} {l l' : Loading} {m m' : Space}
  {pages pages' : PageMap} {va : Nat} {image : Image} {segs : List Phdr}

/-! ### The first segment on a page -/

/-- Another segment behind the others. -/
theorem FromFirst.append (first : FromFirst segs pages) (loaded : Loaded p pages pages') :
    FromFirst (segs ++ [p]) pages' := by
  intro va aligned
  have before := first va aligned
  unfold firstOn at before ⊢
  rw [List.find?_append]
  cases found : segs.find? (fun p => p.Overlaps va) with
  | some q =>
    rw [found] at before
    obtain ⟨f, there⟩ := before
    exact ⟨f, loaded.kept va _ there⟩
  | none =>
    rw [found] at before
    have none_ : pages va = none := before
    rw [Option.none_or, List.find?_singleton]
    by_cases overlaps : p.Overlaps va
    · rw [if_pos (decide_eq_true overlaps)]
      exact loaded.new va aligned overlaps none_
    · rw [if_neg (by simpa using overlaps)]
      exact (loaded.others va fun both => overlaps both.2).trans none_

/-- The stack page is mapped last. -/
theorem mapStack_pages (shows_ : Shows m.tables pages) {rc : Int}
    (done : elf64MapPage heap true false m atmUserStackTop = (m', rc)) :
    ∃ pages', Shows m'.tables pages' ∧ (∀ va, va ≠ atmUserStackTop → pages' va = pages va) ∧
      (¬rc < 0 → pages' atmUserStackTop ≠ none) := by
  have inside : userWindow atmUserStackTop = true := by decide
  obtain ⟨pages', shown, placed⟩ := mapPage_spec heap false true true true shows_ inside rfl
  have same : mapPage heap false true true true m atmUserStackTop = (m', rc) := done
  rw [same] at shown placed
  refine ⟨pages', shown, fun va differ => ?_, fun done => ?_⟩
  · cases placed with
    | kept => rfl
    | mapped => exact Function.update_of_ne differ ..
    | refused => rfl
  · cases placed with
    | kept mapped => exact mapped
    | mapped =>
      rw [Function.update_self]
      exact Option.some_ne_none _
    | refused => exact absurd (by decide) done

/-- **The pages of a load.** -/
theorem loadUser_pages (fresh : Shows m.tables fun _ => none)
    (accepted : elf64LoadUser heap buf m = .ok (m', .ok image)) :
    (∀ p ∈ segments buf, p.Loads → p.Proper buf.length) ∧ ∃ pages pages', FromFirst (segments buf) pages ∧
      Shows m'.tables pages' ∧ (∀ va, va ≠ atmUserStackTop → pages' va = pages va) ∧
      pages' atmUserStackTop ≠ none := by
  obtain ⟨l, rc, looped, -, stack, mapped, -⟩ := elf64LoadUser_ok accepted
  obtain ⟨pages, shown, first, proper⟩ := loadSegments_rule
    (P := fun segs l => ∃ pages, Shows l.space.tables pages ∧ FromFirst segs pages ∧
      ∀ p ∈ segs, p.Loads → p.Proper buf.length) [] looped ⟨_, fresh, fun va _ => rfl, nofun⟩ (by
      rintro segs p l l' vaddr_lt memsz_lt ⟨pages, shows_, first, proper⟩ done
      obtain ⟨proper', pages', shown, loaded⟩ := loadSegment_pages vaddr_lt memsz_lt shows_ done
      refine ⟨pages', shown, first.append loaded, fun q mem loads => ?_⟩
      rcases List.mem_append.mp mem with old | new
      · exact proper q old loads
      · obtain rfl := List.mem_singleton.mp new
        exact proper' loads)
  obtain ⟨pages', shown', others, there⟩ := mapStack_pages shown stack
  exact ⟨proper, pages, pages', first, shown', others, there mapped⟩

theorem firstOn_some (overlapped : ∃ p ∈ segs, p.Overlaps va) : ∃ p, firstOn segs va = some p := by
  obtain ⟨p, mem, overlaps⟩ := overlapped
  refine Option.isSome_iff_exists.mp (List.find?_isSome.mpr ⟨p, mem, decide_eq_true overlaps⟩)

theorem of_firstOn (found : firstOn segs va = some p) : p ∈ segs ∧ p.Overlaps va :=
  ⟨List.mem_of_find?_eq_some found,
    of_decide_eq_true (List.find?_some (p := fun q : Phdr => decide (q.Overlaps va)) found)⟩

/-- **The first segment decides.** -/
theorem translate_first (fresh : Shows m.tables fun _ => none)
    (accepted : elf64LoadUser heap buf m = .ok (m', .ok image)) (aligned : va % atmPageSize = 0)
    (found : firstOn (segments buf) va = some p) :
    ∃ phys e, pagingUserTranslate m'.tables va = some (phys, e) ∧ e.writable = p.asks pfW ∧
      e.noExec = !p.asks pfX := by
  obtain ⟨proper, pages, pages', first, shown, others, -⟩ := loadUser_pages fresh accepted
  obtain ⟨mem, overlaps⟩ := of_firstOn found
  have below := ((proper p mem overlaps.1).page aligned overlaps).2
  have there := first va aligned
  rw [found] at there
  obtain ⟨f, there⟩ := there
  have base : pageBase va = va := Nat.div_mul_cancel (Nat.dvd_of_mod_eq_zero aligned)
  rw [shown.translate_eq, base, others va (Nat.ne_of_lt below), there]
  exact ⟨_, _, rfl, rfl, rfl⟩

/-- **Page permissions.** The pages of an image that is accepted have the rights that the
segments on them ask for exactly if no segment asks for a right that the first one on the
same page does not ask for. -/
theorem load_rights (heap : Nat → Option Nat) (buf : Bytes) (m m' : Space) (image : Image)
    (fresh : Shows m.tables fun _ => none)
    (accepted : elf64LoadUser heap buf m = .ok (m', .ok image)) :
    JoinedRights (segments buf) m'.tables ↔ FirstAsks (segments buf) := by
  constructor
  · intro joined va aligned p found q mem overlaps
    obtain ⟨phys, e, translated, writable, executable⟩ := joined va aligned ⟨q, mem, overlaps⟩
    obtain ⟨phys', e', translated', writable', noExec'⟩ := translate_first fresh accepted aligned found
    obtain ⟨rfl, rfl⟩ := Prod.mk.inj (Option.some.inj (translated.symm.trans translated'))
    refine ⟨fun asks => ?_, fun asks => ?_⟩
    · rw [← writable']
      exact writable.mpr ⟨q, mem, overlaps, asks⟩
    · have off := executable.mpr ⟨q, mem, overlaps, asks⟩
      rw [noExec'] at off
      simpa using off
  · intro asked va aligned overlapped
    obtain ⟨p, found⟩ := firstOn_some overlapped
    obtain ⟨mem, overlaps⟩ := of_firstOn found
    obtain ⟨phys, e, translated, writable, noExec⟩ := translate_first fresh accepted aligned found
    have first := asked va aligned p found
    refine ⟨phys, e, translated, ?_, ?_⟩
    · rw [writable]
      exact ⟨fun asks => ⟨p, mem, overlaps, asks⟩, fun ⟨q, mem, overlaps, asks⟩ => (first q mem overlaps).1 asks⟩
    · rw [noExec, Bool.not_eq_false']
      exact ⟨fun asks => ⟨p, mem, overlaps, asks⟩, fun ⟨q, mem, overlaps, asks⟩ => (first q mem overlaps).2 asks⟩

/-! ### Two images -/

/-- The header of an image with `n` program headers behind it. -/
def ehdrBytes (n : Nat) : Bytes :=
  [0x7F, 69, 76, 70, 2, 1, 1, 0, 0, 0, 0, 0, 0, 0, 0, 0] ++ leBytes 2 2 ++ leBytes 2 62 ++ leBytes 4 1 ++
    leBytes 8 0x40000000 ++ leBytes 8 64 ++ leBytes 8 0 ++ leBytes 4 0 ++ leBytes 2 64 ++ leBytes 2 56 ++
    leBytes 2 n ++ leBytes 6 0

/-- A program header of a segment without bytes in the file. -/
def phdrBytes (flags vaddr memsz : Nat) : Bytes :=
  leBytes 4 1 ++ leBytes 4 flags ++ leBytes 8 0 ++ leBytes 8 vaddr ++ leBytes 8 vaddr ++ leBytes 8 0 ++
    leBytes 8 memsz ++ leBytes 8 0x1000

/-- Code at the start of a page. -/
def codeOnly : Bytes := ehdrBytes 1 ++ phdrBytes 5 0x40000000 16

/-- Code and data on one page. -/
def sharedPage : Bytes := ehdrBytes 2 ++ phdrBytes 5 0x40000000 16 ++ phdrBytes 6 0x40000800 16

theorem load_rights_one :
    ∃ m' image, elf64LoadUser (pagesFrom 0x800000 16) codeOnly newSpace = .ok (m', .ok image) ∧
      JoinedRights (segments codeOnly) m'.tables := by
  have single : ∃ p, segments codeOnly = [p] := ⟨_, rfl⟩
  have done : (match elf64LoadUser (pagesFrom 0x800000 16) codeOnly newSpace with
      | .ok (_, .ok _) => true
      | _ => false) = true := by
    decide +kernel
  split at done
  · rename_i m' image accepted
    refine ⟨m', image, accepted, ?_⟩
    refine (load_rights _ _ _ _ _ (Shows.fresh _) accepted).mpr fun va aligned p found q mem overlaps => ?_
    obtain ⟨r, only⟩ := single
    obtain ⟨mem', -⟩ := of_firstOn found
    rw [only, List.mem_singleton] at mem mem'
    rw [mem, mem']
    exact ⟨id, id⟩
  · cases done

/-- The data on a page of the code cannot be written. -/
theorem data_read_only :
    ∃ m' image, elf64LoadUser (pagesFrom 0x800000 16) sharedPage newSpace = .ok (m', .ok image) ∧
      (pagingUserTranslate m'.tables 0x40000800).map (fun r => r.2.writable) = some false ∧
      ¬JoinedRights (segments sharedPage) m'.tables := by
  have asks : ∃ p ∈ segments sharedPage, p.Overlaps 0x40000000 ∧ p.asks pfW = true := by
    decide
  have done : (match elf64LoadUser (pagesFrom 0x800000 16) sharedPage newSpace with
      | .ok (m', .ok _) =>
        decide ((pagingUserTranslate m'.tables 0x40000800).map (fun r => r.2.writable) = some false ∧
          (pagingUserTranslate m'.tables 0x40000000).map (fun r => r.2.writable) = some false)
      | _ => false) = true := by
    decide +kernel
  split at done
  · rename_i m' image accepted
    have done := of_decide_eq_true done
    refine ⟨m', image, accepted, done.1, fun joined => ?_⟩
    obtain ⟨p, mem, overlaps, writes⟩ := asks
    obtain ⟨phys, e, translated, writable, -⟩ := joined 0x40000000 (by decide) ⟨p, mem, overlaps⟩
    have readOnly := done.2
    rw [translated] at readOnly
    have off : e.writable = false := Option.some.inj readOnly
    rw [writable.mpr ⟨p, mem, overlaps, writes⟩] at off
    cases off
  · cases done

end AtmKoala.Elf
