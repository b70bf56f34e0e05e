import AtmKoala.Lib.Access
import AtmKoala.Lib.Bytes
import AtmKoala.Paging.Store

/-!
The loader of native programs, `elf.c` from `elf64_validate_native` on.

The image is the list of its bytes; what the loader reads of it, it reads through
`Access`, so that a read behind its end is seen. Sums of addresses are taken modulo 2^64.
A failing load leaves the space as it is by then, for its caller to destroy.
-/

namespace AtmKoala.Elf

open Lib Paging

def ptLoad : Nat := 1
def pfX : Nat := 1
def pfW : Nat := 2

/-- `sizeof(Elf64_Ehdr)`. -/
def ehdrSize : Nat := 64

/-- `sizeof(Elf64_Phdr)`. -/
def phdrSize : Nat := 56

/-- The little-endian field of `n` bytes at offset `off`. -/
def field (bs : Bytes) (off n : Nat) : Nat := leNat ((bs.drop off).take n)

/-- `Elf64_Ehdr`, what is read of it. -/
structure Ehdr where
  ident : Bytes
  type : Nat
  machine : Nat
  entry : Nat
  phoff : Nat
  ehsize : Nat
  phentsize : Nat
  phnum : Nat

def Ehdr.ofBytes (bs : Bytes) : Ehdr where
  ident := bs.take 16
  type := field bs 16 2
  machine := field bs 18 2
  entry := field bs 24 8
  phoff := field bs 32 8
  ehsize := field bs 52 2
  phentsize := field bs 54 2
  phnum := field bs 56 2

/-- `Elf64_Phdr`, what is read of it. -/
structure Phdr where
  pType : Nat
  pFlags : Nat
  pOffset : Nat
  pVaddr : Nat
  pFilesz : Nat
  pMemsz : Nat

def Phdr.ofBytes (bs : Bytes) : Phdr where
  pType := field bs 0 4
  pFlags := field bs 4 4
  pOffset := field bs 8 8
  pVaddr := field bs 16 8
  pFilesz := field bs 32 8
  pMemsz := field bs 40 8

/-- `p_flags & flag` for one of the flags. -/
def Phdr.asks (p : Phdr) (flag : Nat) : Bool := p.pFlags / flag % 2 = 1

def elf64ValidateNative (buf : Bytes) : Access Bool :=
  if buf.length < ehdrSize then .ok false
  else do
    let h := Ehdr.ofBytes (← bytesAt buf 0 ehdrSize)
    return h.ident.take 4 = [0x7F, 69, 76, 70] ∧ h.ident.getD 4 0 = 2 ∧ h.ident.getD 5 0 = 1 ∧
      h.ident.getD 6 0 = 1 ∧ h.machine = 62 ∧ h.type = 2 ∧ h.ehsize = ehdrSize ∧
      h.phentsize = phdrSize ∧ 0 < h.phnum

/-- The image that was loaded. -/
structure Image where
  entry : Nat
  loadBase : Nat
  loadEnd : Nat
  stackTop : Nat
deriving DecidableEq

/-- The variables of the loop over the program headers. -/
structure Loading where
  space : Space
  base : Nat
  end_ : Nat
  loads : Nat

section

variable (heap : Nat → Option Nat)

/-- `elf64_map_page`. -/
def elf64MapPage (writable executable : Bool) (m : Space) (va : Nat) : Space × Int :=
  mapPage heap false true writable (!executable) m va

def elf64CopyToMapped (m : Space) (va : Nat) (src : Bytes) : Space × Int :=
  match storeMapped m.tables (fun i => src.getD i 0) src.length m.mem va 0 src.length with
  | (mem, rc) => ({ m with mem }, rc)

def elf64ZeroMapped (m : Space) (va n : Nat) : Space × Int :=
  match storeMapped m.tables (fun _ => 0) n m.mem va 0 n with
  | (mem, rc) => ({ m with mem }, rc)

/-- One round of the loop of `elf64_load_user`, with the message if it fails. -/
def elf64LoadSegment (buf : Bytes) (p : Phdr) (l : Loading) : Access (Loading × Option String) :=
  if p.pType ≠ ptLoad ∨ p.pMemsz = 0 then .ok (l, none)
  else if p.pMemsz < p.pFilesz ∨ buf.length < p.pOffset ∨ buf.length - p.pOffset < p.pFilesz then
    .ok (l, some "malformed load segment")
  else
    let segEnd := (p.pVaddr + p.pMemsz) % 2 ^ 64
    if segEnd < p.pVaddr ∨ p.pVaddr < atmUserBase ∨ atmUserStackTop < segEnd then
      .ok (l, some "segment outside user window")
    else
      let page := pageMask p.pVaddr
      let last := pageMask (segEnd - 1)
      match overPages (elf64MapPage heap (p.asks pfW) (p.asks pfX)) ((last - page) / atmPageSize + 1) page
          l.space with
      | (m, some _) => .ok ({ l with space := m }, some "out of user pages")
      | (m, none) => do
        let src ← bytesAt buf p.pOffset p.pFilesz
        match elf64CopyToMapped m p.pVaddr src with
        | (m, rc) =>
          if rc < 0 then return ({ l with space := m }, some "segment copy failed")
          else
            match elf64ZeroMapped m ((p.pVaddr + p.pFilesz) % 2 ^ 64) (p.pMemsz - p.pFilesz) with
            | (m, rc) =>
              if rc < 0 then return ({ l with space := m }, some "segment copy failed")
              else
                let base := if p.pVaddr < l.base then p.pVaddr else l.base
                let end_ := if l.end_ < segEnd then segEnd else l.end_
                return (⟨m, base, end_, l.loads + 1⟩, none)

/-- The loop over the `n` program headers from the `i`-th on. -/
def elf64LoadSegments (buf : Bytes) (phoff : Nat) : Nat → Nat → Loading → Access (Loading × Option String)
  | 0, _, l => .ok (l, none)
  | n + 1, i, l => do
    let p := Phdr.ofBytes (← bytesAt buf (phoff + i * phdrSize) phdrSize)
    match ← elf64LoadSegment heap buf p l with
    | (l, some error) => return (l, some error)
    | (l, none) => elf64LoadSegments buf phoff n (i + 1) l

def elf64LoadUser (buf : Bytes) (m : Space) : Access (Space × Except String Image) := do
  if !m.tables.valid then return (m, .error "invalid native ELF64")
  else if !(← elf64ValidateNative buf) then return (m, .error "invalid native ELF64")
  else
    let h := Ehdr.ofBytes (← bytesAt buf 0 ehdrSize)
    if buf.length < h.phoff ∨ buf.length - h.phoff < h.phnum * phdrSize then
      return (m, .error "program headers outside file")
    else
      match ← elf64LoadSegments heap buf h.phoff h.phnum 0 ⟨m, 2 ^ 64 - 1, 0, 0⟩ with
      | (l, some error) => return (l.space, .error error)
      | (l, none) =>
        if l.loads = 0 ∨ h.entry < atmUserBase ∨ atmUserStackTop ≤ h.entry then
          return (l.space, .error "invalid user entry")
        else
          match elf64MapPage heap true false l.space atmUserStackTop with
          | (m, rc) =>
            if rc < 0 then return (m, .error "stack map failed")
            else return (m, .ok ⟨h.entry, l.base, l.end_, atmUserStackTop + atmPageSize⟩)

end

end AtmKoala.Elf
