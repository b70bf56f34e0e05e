import Mathlib.Data.List.FinRange
import AtmKoala.Lib.Memory
import AtmKoala.Lib.Numerals

/-!
User page tables and copies to and from a user space (`paging.c`, `uaccess.c`).

The tables of a space are blocks of the heap that nothing else writes to, so they
stand beside the memory that holds the frames and the buffers of the kernel. What a
page is mapped to is given to `paging_map_user_page`; whether it gets the memory of
a new table is an argument as well. The translation buffer of the processor and the
release of a frame to the heap are left out.
-/

namespace AtmKoala.Paging

open Lib

def atmPageSize : Nat := 0x1000
def atmUserBase : Nat := 0x40000000
def atmUserWindowSize : Nat := 0x08000000
def atmUserTop : Nat := atmUserBase + atmUserWindowSize
def atmUserPtCount : Nat := atmUserWindowSize / (512 * atmPageSize)

/-- An entry of a page table: the address bits and `ATM_PTE_P`, `ATM_PTE_W`, `ATM_PTE_U`
and `ATM_PTE_NX`. The functions below set no other. -/
structure Pte where
  addr : Nat
  present : Bool
  writable : Bool
  user : Bool
  noExec : Bool
deriving DecidableEq

def Pte.zero : Pte := ⟨0, false, false, false, false⟩

/-- An entry of a page directory: one of the kernel's, or one for a table in `user_pt`. -/
inductive Pde where
  | kernel (entry : Nat)
  | table (slot : Nat)
deriving DecidableEq

/-- `user_space_t`. -/
structure UserSpace where
  pd : Fin 4 → Nat → Pde
  userPt : Nat → Option (Nat → Pte)
  mappedPages : Nat
  valid : Bool

/-- `x & ATM_PAGE_MASK`. -/
def pageMask (x : Nat) : Nat := x % 2 ^ 52 / atmPageSize * atmPageSize

def userWindow (va : Nat) : Bool := atmUserBase ≤ va && va < atmUserTop

def userPtSlot (va : Nat) : Nat := (va - atmUserBase) / 2 ^ 21
def userPtPage (va : Nat) : Nat := va / atmPageSize % 512

/-- `s->user_pt[slot][page] = e` in a table that is there. -/
def UserSpace.setPte (s : UserSpace) (va : Nat) (e : Pte) : UserSpace :=
  let slot := userPtSlot va
  let table := (s.userPt slot).map fun t => Function.update t (userPtPage va) e
  { s with userPt := Function.update s.userPt slot table }

/-- The end of `paging_create_user_space`, with the page directories of the kernel. -/
def pagingCreateUserSpace (kpd : Fin 4 → Nat → Nat) : UserSpace where
  pd i k := .kernel (kpd i k)
  userPt _ := none
  mappedPages := 0
  valid := true

/-- A table for the slot of `va`, if there is none yet. -/
def withTable (s : UserSpace) (va : Nat) (alloc : Bool) : Option UserSpace :=
  match s.userPt (userPtSlot va) with
  | some _ => some s
  | none =>
    if !alloc then none
    else
      let slot := userPtSlot va
      some { s with
        userPt := Function.update s.userPt slot (some fun _ => .zero)
        pd := Function.update s.pd 1 (Function.update (s.pd 1) slot (.table slot)) }

def pagingMapUserPage (s : UserSpace) (va phys : Nat) (writable noExec alloc : Bool) :
    UserSpace × Int :=
  if !s.valid || !userWindow va || va % atmPageSize ≠ 0 then (s, -1)
  else if atmUserPtCount ≤ userPtSlot va then (s, -1)
  else
    match withTable s va alloc with
    | none => (s, -1)
    | some s =>
      let s := s.setPte va ⟨pageMask phys, true, writable, true, noExec⟩
      let page := (va - atmUserBase) / atmPageSize
      (if s.mappedPages ≤ page then { s with mappedPages := page + 1 } else s, 0)

/-- The entry for `va`, in a table that is there. -/
def UserSpace.entry (s : UserSpace) (va : Nat) : Option Pte :=
  if atmUserPtCount ≤ userPtSlot va then none
  else (s.userPt (userPtSlot va)).map fun t => t (userPtPage va)

def pagingUnmapUserPage (s : UserSpace) (va : Nat) : UserSpace × Int :=
  if !s.valid || !userWindow va || va % atmPageSize ≠ 0 then (s, -1)
  else
    match s.entry va with
    | none => (s, -1)
    | some _ => (s.setPte va .zero, 0)

def pagingReleaseUserPage (s : UserSpace) (va : Nat) : UserSpace × Int :=
  if !s.valid || !userWindow va || va % atmPageSize ≠ 0 then (s, -1)
  else
    match s.entry va with
    | none => (s, -1)
    | some old =>
      if !old.present || !old.user then (s, -1)
      else (s.setPte va .zero, 0)

def pagingProtectUserPage (s : UserSpace) (va : Nat) (writable noExec : Bool) : UserSpace × Int :=
  if !s.valid || !userWindow va || va % atmPageSize ≠ 0 then (s, -1)
  else
    match s.entry va with
    | none => (s, -1)
    | some old =>
      if !old.present || !old.user then (s, -1)
      else (s.setPte va ⟨old.addr, true, writable, true, noExec⟩, 0)

/-- `paging_user_translate`: the address and the entry. -/
def pagingUserTranslate (s : UserSpace) (va : Nat) : Option (Nat × Pte) :=
  if !s.valid || !userWindow va then none
  else
    match s.entry va with
    | none => none
    | some e =>
      if !e.present || !e.user then none
      else some (e.addr + va % atmPageSize, e)

/-- The loop of `paging_user_range`; `fuel` is the number of its pages. -/
def pagingUserRangeLoop (s : UserSpace) (write : Bool) (last : Nat) : Nat → Nat → Int
  | 0, _ => -1
  | fuel + 1, page =>
    match pagingUserTranslate s page with
    | none => -1
    | some (_, f) =>
      if write && !f.writable then -1
      else if page = last then 0
      else pagingUserRangeLoop s write last fuel (page + atmPageSize)

def pagingUserRange (s : UserSpace) (va size : Nat) (write : Bool) : Int :=
  if size = 0 || !userWindow va || atmUserWindowSize < size then -1
  else
    let last := (va + size - 1) % 2 ^ 64
    if last < va || !userWindow last then -1
    else
      pagingUserRangeLoop s write (pageMask last)
        ((pageMask last - pageMask va) / atmPageSize + 1) (pageMask va)

/-- The loop of `user_copy`; `fuel` is at least `len`. -/
def userCopyLoop (s : UserSpace) (toUser : Bool) : Nat → Memory → Nat → Nat → Nat → Memory × Int
  | 0, m, _, _, _ => (m, 0)
  | fuel + 1, m, uaddr, k, len =>
    if len = 0 then (m, 0)
    else
      match pagingUserTranslate s uaddr with
      | none => (m, -1)
      | some (phys, _) =>
        let room := atmPageSize - uaddr % atmPageSize
        let n := if len < room then len else room
        let m := if toUser then memcpy m phys k n else memcpy m k phys n
        userCopyLoop s toUser fuel m ((uaddr + n) % 2 ^ 64) (k + n) (len - n)

def userCopy (s : UserSpace) (m : Memory) (uaddr kaddr len : Nat) (toUser : Bool) : Memory × Int :=
  if kaddr = 0 then (m, -1)
  else if len = 0 then (m, 0)
  else if pagingUserRange s uaddr len toUser < 0 then (m, -1)
  else userCopyLoop s toUser len m uaddr kaddr len

def copyFromUser (s : UserSpace) (m : Memory) (dst userSrc len : Nat) : Memory × Int :=
  userCopy s m userSrc dst len false

def copyToUser (s : UserSpace) (m : Memory) (userDst src len : Nat) : Memory × Int :=
  userCopy s m userDst src len true

end AtmKoala.Paging
