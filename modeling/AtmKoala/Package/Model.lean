import Mathlib.Data.Nat.Digits.Defs
import AtmKoala.Lib.Access
import AtmKoala.Lib.Bytes

/-!
Native packages (`tarzst.c`): raw Zstandard frames, USTAR archives, and the control and
manifest texts of an ATPK.

A buffer is the list of its bytes, a C string the list of the bytes before its NUL, and a
position in a buffer a natural number below `2 ^ 32`; `u32` cuts sums to 32 bits where the
source computes them in a `uint32_t`. A read behind the end of a buffer, or a write behind
the end of the workspace, ends in `Fault.outside`, and a loop that runs out of its fuel in
`Fault.stuck`. Buffers are not written to once they have been handed on.
-/

namespace AtmKoala.Package

open Lib

/-- The bytes of a string literal. -/
def ascii (s : String) : Bytes := s.toList.map fun c => UInt8.ofNat c.toNat

def u32 (n : Nat) : Nat := n % 2 ^ 32

def tzstMaxUnpacked : Nat := 262144
def tzstNameMax : Nat := 64
def tarBlock : Nat := 512

def align512 (n : Nat) : Nat := u32 (n + (tarBlock - 1)) / tarBlock * tarBlock

/-! ### Zstandard -/

/-- The header of a block. -/
def blockHeader (src : Bytes) (ip : Nat) : Access Nat := do
  let a ← byteAt src ip
  let b ← byteAt src (u32 (ip + 1))
  let c ← byteAt src (u32 (ip + 2))
  return a.toNat + 256 * b.toNat + 65536 * c.toNat

/-- The blocks of `zstd_unpack_raw`; `out` is what has been unpacked so far. -/
def zstdBlocks (src : Bytes) (cap declared : Nat) : Nat → Nat → Bytes → Access (Int × Bytes)
  | 0, _, _ => .error .stuck
  | fuel + 1, ip, out => do
    if u32 (ip + 3) > src.length then return (-4, out)
    let bh ← blockHeader src ip
    let ip := u32 (ip + 3)
    let last := bh % 2
    let type := bh / 2 % 4
    let bs := bh / 8
    if type = 0 then
      if u32 (ip + bs) > src.length ∨ u32 (out.length + bs) > cap then return (-5, out)
      let out ← emit cap out (← bytesAt src ip bs)
      if last = 1 then
        return (if declared ≠ 0 ∧ declared ≠ out.length then (-8, out) else (0, out))
      zstdBlocks src cap declared fuel (u32 (ip + bs)) out
    else if type = 1 then
      if ip ≥ src.length ∨ u32 (out.length + bs) > cap then return (-6, out)
      let v ← byteAt src ip
      let out ← emit cap out (List.replicate bs v)
      if last = 1 then
        return (if declared ≠ 0 ∧ declared ≠ out.length then (-8, out) else (0, out))
      zstdBlocks src cap declared fuel (u32 (ip + 1)) out
    else return (-7, out)

/-- The declared size: `fs` bytes, the lowest first. -/
def declaredSize (bytes : Bytes) : Nat := bytes.foldr (fun b v => b.toNat + 256 * v) 0

/-- The magic number, as it stands in a frame. -/
def zstdMagic : Bytes := [0x28, 0xB5, 0x2F, 0xFD]

/-- The size of the dictionary id in a frame with the descriptor `desc`. -/
def dictSize (desc : Nat) : Nat :=
  match desc % 4 with
  | 0 => 0
  | 1 => 1
  | 2 => 2
  | _ => 4

/-- The size of the content size in a frame with the descriptor `desc`. -/
def contentSize (desc : Nat) : Nat :=
  match desc / 64 with
  | 0 => if desc / 32 % 2 = 1 then 1 else 0
  | 1 => 2
  | 2 => 4
  | _ => 8

/-- `zstd_unpack_raw`: the code, and what has been written to `out`. -/
def zstdUnpackRaw (fuel : Nat) (src : Bytes) (cap : Nat) : Access (Int × Bytes) := do
  if src.length < 6 then return (-1, [])
  if (← bytesAt src 0 4) ≠ zstdMagic then return (-1, [])
  let desc := (← byteAt src 4).toNat
  let ds := dictSize desc
  if u32 (5 + ds) > src.length then return (-2, [])
  let ip := 5 + ds
  let fs := contentSize desc
  if u32 (ip + fs) > src.length then return (-3, [])
  let declared := declaredSize (← bytesAt src ip fs)
  zstdBlocks src cap declared fuel (ip + fs) []

/-! ### Archives -/

/-- The first `n` bytes are zero. -/
def zeroBytes : Nat → Bytes → Access Bool
  | 0, _ => .ok true
  | _ + 1, [] => .error .outside
  | n + 1, b :: rest => if b ≠ 0 then .ok false else zeroBytes n rest

def tarZero (tar : Bytes) (pos : Nat) : Access Bool := zeroBytes tarBlock (tar.drop pos)

/-- The digits of `tar_octal`, behind those that make `v`. -/
def octalDigits : Nat → Nat → Bytes → Access Nat
  | 0, v, _ => .ok v
  | _ + 1, _, [] => .error .outside
  | n + 1, v, b :: rest =>
    if b = 0 then .ok v
    else if b.toNat < 48 ∨ 55 < b.toNat then .ok v
    else octalDigits n (u32 (v * 8 + (b.toNat - 48))) rest

def tarOctal (tar : Bytes) (off n : Nat) : Access Nat := octalDigits n 0 (tar.drop off)

/-- `'.'` and `'/'`. -/
def dotByte : UInt8 := 46
def slashByte : UInt8 := 47

/-- The loop of `tar_safe_name`, behind the byte `prev`. -/
def safeFrom : Option UInt8 → Bytes → Access Bool
  | _, [] => .error .outside
  | prev, c :: rest =>
    if c = 0 then .ok true
    else if c = dotByte then
      match rest with
      | [] => .error .outside
      | c' :: rest' =>
        if c' = dotByte ∧ (prev = none ∨ prev = some slashByte) then
          match rest' with
          | [] => .error .outside
          | e :: _ =>
            if e = slashByte ∨ e = 0 then .ok false else safeFrom (some c) (c' :: rest')
        else safeFrom (some c) (c' :: rest')
    else safeFrom (some c) rest

def tarSafeName : Bytes → Access Bool
  | [] => .error .outside
  | c :: rest => if c = 0 ∨ c = slashByte then .ok false else safeFrom none (c :: rest)

/-- The C string at the start of a buffer. -/
def cstr : Bytes → Access Bytes
  | [] => .error .outside
  | b :: rest => if b = 0 then .ok [] else (cstr rest).map (b :: ·)

/-- What `tar_next` returns: its code, or the entry and the position behind it. -/
inductive TarStep where
  | stop (code : Int)
  | entry (name data size : Nat) (type : UInt8) (next : Nat)
deriving DecidableEq

def ustarMagic : Bytes := ascii "ustar"

def tarNext (tar : Bytes) (pos : Nat) : Access TarStep := do
  if u32 (pos + tarBlock) > tar.length then return .stop 0
  if ← tarZero tar pos then return .stop 0
  if (← bytesAt tar (pos + 257) 5) ≠ ustarMagic then return .stop (-1)
  let fsize ← tarOctal tar (pos + 124) 12
  let payload := u32 (pos + tarBlock)
  if u32 (payload + fsize) > tar.length then return .stop (-2)
  return .entry pos payload fsize (← byteAt tar (pos + 156)) (u32 (payload + align512 fsize))

/-- An entry that `tar_next` has handed out, and where it was. -/
structure Handed where
  pos : Nat
  data : Nat
  size : Nat
deriving DecidableEq

/-! ### Texts -/

def isBreak (b : UInt8) : Bool := b = 10 || b = 13
def isBlank (b : UInt8) : Bool := b = 32 || b = 9

/-- The rest of a line in the first `n` bytes, and what is left. -/
def takeLine : Nat → Bytes → Access (Bytes × Nat × Bytes)
  | 0, rest => .ok ([], 0, rest)
  | _ + 1, [] => .error .outside
  | n + 1, b :: rest =>
    if isBreak b then .ok ([], n + 1, b :: rest)
    else (takeLine n rest).map fun (line, left) => (b :: line, left)

def skipBreaks : Nat → Bytes → Access (Nat × Bytes)
  | 0, rest => .ok (0, rest)
  | _ + 1, [] => .error .outside
  | n + 1, b :: rest => if isBreak b then skipBreaks n rest else .ok (n + 1, b :: rest)

/-- A C string in a buffer of `cap` bytes. -/
def cut (cap : Nat) (value : Bytes) : Bytes := (value.take (cap - 1)).takeWhile (· ≠ 0)

/-- The lines of `copy_line_value`: `out` is empty if none has the key. -/
def copyLines (key : Bytes) (cap : Nat) : Nat → Nat → Bytes → Access Bytes
  | 0, _, _ => .ok []
  | fuel + 1, n, rest => do
    if n = 0 then return []
    let (text, n, rest) ← takeLine n rest
    let (n, rest) ← skipBreaks n rest
    if key.length + 1 < text.length ∧ text.take key.length = key ∧
        text[key.length]? = some 58 then
      return cut cap ((text.drop (key.length + 1)).dropWhile isBlank)
    copyLines key cap fuel n rest

/-- `copy_line_value` on the `size` bytes at `data`, without its code. -/
def copyLineValue (tar : Bytes) (data size : Nat) (key : String) (cap : Nat) : Access Bytes :=
  copyLines (ascii key) cap size size (tar.drop data)

def packageByte (b : UInt8) : Bool :=
  (97 ≤ b.toNat && b.toNat ≤ 122) || (48 ≤ b.toNat && b.toNat ≤ 57) || b = 43 || b = 45 || b = 46

def validPkgName (s : Bytes) : Bool :=
  s ≠ [] && decide (s.length < tzstNameMax) && s.all packageByte

/-- `hex_u32` behind `n` digits that make `v`. -/
def hexDigits : Nat → Nat → Bytes → Option Nat
  | n, v, [] => if n = 8 then some v else none
  | n, v, b :: rest =>
    if isBlank b then (if n = 8 then some v else none)
    else
      let digit :=
        if 48 ≤ b.toNat ∧ b.toNat ≤ 57 then some (b.toNat - 48)
        else if 97 ≤ b.toNat ∧ b.toNat ≤ 102 then some (b.toNat - 97 + 10)
        else if 65 ≤ b.toNat ∧ b.toNat ≤ 70 then some (b.toNat - 65 + 10)
        else none
      match digit with
      | none => none
      | some d => if 8 ≤ n then none else hexDigits (n + 1) (u32 (v * 16 + d)) rest

def hexU32 (s : Bytes) : Option Nat := hexDigits 0 0 s

def isDigit (b : UInt8) : Bool := 48 ≤ b.toNat && b.toNat ≤ 57

def decU32 (s : Bytes) : Nat :=
  (s.takeWhile isDigit).foldl (fun v b => u32 (v * 10 + (b.toNat - 48))) 0

/-- A line of a manifest: the checksum, the size and the path. -/
def manifestLine (line : Bytes) : Option (Bytes × Bytes × Bytes) :=
  let a := line.takeWhile (· ≠ 0)
  let afterA := a.dropWhile (· ≠ 32)
  if afterA = [] then none
  else
    let b := afterA.tail.dropWhile (· = 32)
    let afterB := b.dropWhile (· ≠ 32)
    if afterB = [] then none
    else some (a.takeWhile (· ≠ 32), b.takeWhile (· ≠ 32), afterB.tail.dropWhile (· = 32))

/-- The lines of `manifest_find`: the checksum and the size for a path. -/
def manifestLines (path : Bytes) : Nat → Nat → Bytes → Access (Option (Nat × Nat))
  | 0, _, _ => .ok none
  | fuel + 1, n, rest => do
    if n = 0 then return none
    let (line, n, rest) ← takeLine n rest
    let (n, rest) ← skipBreaks n rest
    if line = [] then manifestLines path fuel n rest
    else if 192 ≤ line.length then return none
    else
      match manifestLine line with
      | none => manifestLines path fuel n rest
      | some (a, b, c) =>
        if c ≠ path then manifestLines path fuel n rest
        else return (hexU32 a).map fun crc => (crc, decU32 b)

def manifestFind (tar : Bytes) (data size : Nat) (path : Bytes) : Access (Option (Nat × Nat)) :=
  manifestLines path size size (tar.drop data)

/-- One bit of `crc32`. -/
def crcBit (c : UInt32) : UInt32 := (c >>> 1) ^^^ (if c &&& 1 ≠ 0 then 0xEDB88320 else 0)

def crcByte (c : UInt32) (b : UInt8) : UInt32 :=
  crcBit (crcBit (crcBit (crcBit (crcBit (crcBit (crcBit (crcBit (c ^^^ b.toUInt32))))))))

def crc32 (p : Bytes) : UInt32 := ~~~(p.foldl crcByte 0xFFFFFFFF)

/-! ### Parsing -/

/-- `tzst_pkg_t`. -/
structure Pkg where
  tar : Bytes
  packageName : Bytes
  version : Bytes
  architecture : Bytes
  description : Bytes
  fileCount : Nat
  payloadCount : Nat
  atpk : Bool
  manifestPresent : Bool
deriving DecidableEq

/-- The locals of `tzst_parse` in its loop, and what `tar_next` has handed out. -/
structure Parse where
  pkg : Pkg
  control : Option (Nat × Nat)
  manifest : Option (Nat × Nat)
  handed : List Handed
deriving DecidableEq

def isFile (type : UInt8) : Bool := type = 0 || type = 48

def nativeArch : Bytes := ascii "atmkoala-x86_64"

def controlName : Bytes := ascii "ATPK/control"
def manifestName : Bytes := ascii "ATPK/manifest"

/-- The file counts of `tzst_parse`. -/
def countFile (p : Parse) (t : UInt8) : Parse :=
  if isFile t then { p with pkg.fileCount := u32 (p.pkg.fileCount + 1) } else p

def countPayload (p : Parse) (n : Bytes) (t : UInt8) : Parse :=
  if (ascii "data/").isPrefixOf n && isFile t then
    { p with pkg.payloadCount := u32 (p.pkg.payloadCount + 1) }
  else p

/-- The entries that `tzst_parse` knows by name: a code to return, or the locals behind. -/
def takeMeta (p : Parse) (n : Bytes) (d sz : Nat) : Access (Except Int Parse) :=
  if n = controlName then
    if p.control.isSome then .ok (.error (-5))
    else .ok (.ok { p with control := some (d, sz), pkg.atpk := true })
  else if n = manifestName then
    if p.manifest.isSome then .ok (.error (-6))
    else
      .ok (.ok { p with manifest := some (d, sz), pkg.manifestPresent := true, pkg.atpk := true })
  else if n = ascii "META/name" ∧ sz ≠ 0 then
    (bytesAt p.pkg.tar d (if tzstNameMax ≤ sz then tzstNameMax - 1 else sz)).map fun name =>
      .ok { p with
        pkg.packageName := (name.takeWhile (· ≠ 0)).takeWhile fun b => !isBreak b }
  else .ok (.ok p)

/-- One entry in the loop of `tzst_parse`. -/
def parseEntry (p : Parse) (n : Bytes) (d sz : Nat) (t : UInt8) : Access (Except Int Parse) :=
  (takeMeta (countFile p t) n d sz).map fun r => r.map fun p => countPayload p n t

/-- The loop of `tzst_parse`; the code is zero where it goes on behind the loop. -/
def parseLoop : Nat → Nat → Parse → Access (Int × Parse)
  | 0, _, _ => .error .stuck
  | fuel + 1, pos, p => do
    match ← tarNext p.pkg.tar pos with
    | .stop code => return (if code < 0 then -3 else 0, p)
    | .entry name data size type next =>
      let p := { p with handed := p.handed ++ [⟨pos, data, size⟩] }
      if !(← tarSafeName (p.pkg.tar.drop name)) then return (-4, p)
      let n ← cstr (p.pkg.tar.drop name)
      match ← parseEntry p n data size type with
      | .error code => return (code, p)
      | .ok p => parseLoop fuel next p

/-- The end of `tzst_parse`. -/
def parseControl (p : Parse) : Access (Int × Parse) := do
  if p.pkg.atpk then
    match p.control, p.manifest with
    | some (control, size), some _ =>
      if p.pkg.payloadCount = 0 then return (-7, p)
      let tar := p.pkg.tar
      let p := { p with
        pkg.packageName := ← copyLineValue tar control size "Package" tzstNameMax
        pkg.version := ← copyLineValue tar control size "Version" 32
        pkg.architecture := ← copyLineValue tar control size "Architecture" 24
        pkg.description := ← copyLineValue tar control size "Description" 96 }
      if !validPkgName p.pkg.packageName ∨ p.pkg.version = [] ∨
          (p.pkg.architecture ≠ nativeArch ∧ p.pkg.architecture ≠ ascii "all") then
        return (-8, p)
      return (if p.pkg.fileCount ≠ 0 then 0 else -9, p)
    | _, _ => return (-7, p)
  else return (if p.pkg.fileCount ≠ 0 then 0 else -9, p)

/-- The locals before the loop, for an archive. -/
def parseStart (tar : Bytes) : Parse where
  pkg :=
    { tar, packageName := ascii "package", version := [], architecture := nativeArch,
      description := [], fileCount := 0, payloadCount := 0, atpk := false,
      manifestPresent := false }
  control := none
  manifest := none
  handed := []

/-- `tzst_parse`, with the workspace for the archive. -/
def tzstParse (fuel : Nat) (buf : Bytes) : Access (Int × Parse) := do
  let (code, tar) ← zstdUnpackRaw fuel buf tzstMaxUnpacked
  if code < 0 ∨ tar.length < tarBlock then return (-2, parseStart [])
  let (code, p) ← parseLoop fuel 0 (parseStart tar)
  if code < 0 then return (code, p)
  parseControl p

/-- The loop of `archive_name_count`, with what `tar_next` has handed out. -/
def nameCountLoop (tar wanted : Bytes) : Nat → Nat → Nat → List Handed →
    Access (Nat × List Handed)
  | 0, _, _, _ => .error .stuck
  | fuel + 1, pos, count, handed => do
    match ← tarNext tar pos with
    | .stop _ => return (count, handed)
    | .entry name data size _ next =>
      let n ← cstr (tar.drop name)
      nameCountLoop tar wanted fuel next (if n = wanted then u32 (count + 1) else count)
        (handed ++ [⟨pos, data, size⟩])

def archiveNameCount (fuel : Nat) (tar wanted : Bytes) : Access (Nat × List Handed) :=
  nameCountLoop tar wanted fuel 0 0 []

/-- The search of `install_atpk` for the manifest. -/
def findManifest (tar : Bytes) : Nat → Nat → Access (Option (Nat × Nat))
  | 0, _ => .error .stuck
  | fuel + 1, pos => do
    match ← tarNext tar pos with
    | .stop _ => return none
    | .entry name data size _ next =>
      if (← cstr (tar.drop name)) = manifestName then return some (data, size)
      findManifest tar fuel next

/-- What `install_atpk` asks of the size and the checksum of an entry. -/
def manifestCheck (fuel : Nat) (tar n : Bytes) (d sz : Nat) : Access Bool := do
  match ← findManifest tar fuel 0 with
  | none => return false
  | some (mf, mfsz) =>
    match ← manifestFind tar mf mfsz n with
    | none => return false
    | some (wc, ws) => return ws = sz && wc = (crc32 (← bytesAt tar d sz)).toNat

/-! ### Writing -/

/-- `tar_octal_write`: `n` bytes, the last of them NUL. -/
def octalText : Nat → Nat → Bytes
  | 0, _ => []
  | n + 1, v => octalText n (v / 8) ++ [UInt8.ofNat (48 + v % 8)]

def tarOctalWrite (n v : Nat) : Bytes := if n = 0 then [] else octalText (n - 1) v ++ [0]

/-- `kstrncpy` into a field of `n` bytes. -/
def kstrncpy (s : Bytes) (n : Nat) : Bytes := s.take n ++ List.replicate (n - s.length) 0

/-- The header that `tar_write_file` writes. -/
def tarHeader (name : Bytes) (size : Nat) : Bytes :=
  let h := overwrite (List.replicate tarBlock 0) 0 (kstrncpy name 99)
  let h := overwrite h 100 (tarOctalWrite 8 0o755)
  let h := overwrite h 124 (tarOctalWrite 12 size)
  let h := overwrite h 156 [48]
  let h := overwrite h 257 ustarMagic
  overwrite h 262 [48, 48]

/-- `tar_write_file`: the buffer, and the position behind the entry. -/
def tarWriteFile (tar : Bytes) (cap pos : Nat) (name data : Bytes) : Bytes × Nat :=
  let next := u32 (pos + tarBlock + align512 data.length)
  if next > cap ∨ tarSafeName (name ++ [0]) ≠ .ok true then (tar, 0)
  else
    (overwrite (overwrite tar pos (tarHeader name data.length)) (pos + tarBlock) data, next)

/-- `kuitoa`, in base ten. -/
def kuitoa (n : Nat) : Bytes :=
  if n = 0 then [48] else (Nat.digits 10 n).reverse.map fun d => UInt8.ofNat (48 + d)

def hexByte (d : Nat) : UInt8 := if d < 10 then UInt8.ofNat (48 + d) else UInt8.ofNat (87 + d)

/-- `crcbuf`. -/
def hexText (c : Nat) : Bytes :=
  [7, 6, 5, 4, 3, 2, 1, 0].map fun i => hexByte (c / 16 ^ i % 16)

def controlText (name ver : Bytes) : Bytes :=
  ascii "Package: " ++ name ++ ascii "\nVersion: " ++ ver ++
    ascii "\nArchitecture: atmkoala-x86_64\nDescription: Native ATMKoala application\n"

def manifestText (elf path : Bytes) : Bytes :=
  hexText (crc32 elf).toNat ++ [32] ++ kuitoa elf.length ++ [32] ++ path ++ [10]

def payloadPath (name : Bytes) : Bytes := ascii "data/bin/" ++ name

/-- The blocks of a frame for the first `ts` bytes of `tar`, from `ip` on. -/
def wrapBlocks (tar : Bytes) (ts : Nat) : Nat → Nat → Bytes
  | 0, _ => []
  | fuel + 1, ip =>
    if ts ≤ ip then []
    else
      let ch := if 131071 < ts - ip then 131071 else ts - ip
      let bh := ch * 8 + (if ip + ch = ts then 1 else 0)
      [UInt8.ofNat bh, UInt8.ofNat (bh / 256), UInt8.ofNat (bh / 65536)] ++
        (tar.drop ip).take ch ++ wrapBlocks tar ts fuel (ip + ch)

/-- `wr64`. -/
def le64 (v : Nat) : Bytes := (List.range 8).map fun i => UInt8.ofNat (v / 256 ^ i)

/-- `tzst_wrap_elf`: a code, or what it has written to `out`. -/
def tzstWrapElf (elf name : Bytes) (ver : Option Bytes) (cap : Nat) : Except Int Bytes := do
  if !validPkgName name ∨ tzstMaxUnpacked - 4096 < elf.length then throw (-1)
  let tar := List.replicate tzstMaxUnpacked 0
  let path := payloadPath name
  let control := controlText name (ver.getD (ascii "1.0.0"))
  let (tar, pos) := tarWriteFile tar tzstMaxUnpacked 0 controlName control
  if pos = 0 then throw (-2)
  let (tar, pos) :=
    tarWriteFile tar tzstMaxUnpacked pos manifestName (manifestText elf path)
  if pos = 0 then throw (-3)
  let (tar, pos) := tarWriteFile tar tzstMaxUnpacked pos path elf
  if pos = 0 ∨ tzstMaxUnpacked < pos + 1024 then throw (-4)
  let ts := pos + 1024
  if cap < ts + 32 then throw (-5)
  return zstdMagic ++ [0xE0] ++ le64 ts ++ wrapBlocks tar ts ts 0

end AtmKoala.Package
