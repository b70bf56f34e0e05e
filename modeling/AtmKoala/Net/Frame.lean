import AtmKoala.Lib.Bytes
import AtmKoala.Lib.Checksum

/-!
Received TCP frames (`net_tcp.c`, with the checksum of `net.c`).

A frame is the byte stream behind the receive buffer's pointer together with
the length `n` that `net_recv` returned. `tcpValidateFrame` is the test that all
receive loops put a frame through before they look at it; the fields they read
afterwards are `srcPort`, `dstPort`, `seqOf`, `ackOf`, `flagsOf`, `windowOf` and
`payload`.

The test is meant to vouch for both checksums (`Authentic`).
`frame_authentic` says for which frames it does: `tcp_checksum` answers 0 for a
segment that does not fit its buffer, so a longer segment is accepted whatever
its bytes are.
-/

namespace AtmKoala.Net

open Lib

/-! ### Byte order -/

/-- `net_bswap16`. -/
def netBswap16 (x : UInt16) : UInt16 := (x >>> 8) ||| (x <<< 8)

/-- `net_bswap32`. -/
def netBswap32 (x : UInt32) : UInt32 :=
  ((x &&& 0xFF) <<< 24) ||| (((x >>> 8) &&& 0xFF) <<< 16) ||| (((x >>> 16) &&& 0xFF) <<< 8)
    ||| ((x >>> 24) &&& 0xFF)

/-- `len` bytes of a buffer from offset `off` on. -/
def bytes (frame : Nat → UInt8) (off len : Nat) : List UInt8 :=
  (List.range len).map fun k => frame (off + k)

@[simp] theorem length_bytes (frame : Nat → UInt8) (off len : Nat) :
    (bytes frame off len).length = len := by
  simp [bytes]

/-! ### The Internet checksum -/

/-- The first loop of `net_ip_checksum`: add up the little-endian 16-bit words,
an odd last byte as it is. -/
def sumWords : UInt32 → List UInt8 → UInt32
  | sum, a :: b :: rest => sumWords (sum + UInt32.ofNat (a.toNat + 256 * b.toNat)) rest
  | sum, [a] => sum + a.toUInt32
  | sum, [] => sum

/-- One round of the second loop: what is above 16 bits is added below. -/
def foldCarry (sum : UInt32) : UInt32 := (sum &&& (0xFFFF : UInt32)) + (sum >>> 16)

/-- The second loop of `net_ip_checksum`: fold the carries in until the sum has
16 bits, for `fuel` rounds at most. -/
def foldCarries : Nat → UInt32 → UInt32
  | 0, sum => sum
  | fuel + 1, sum => if sum >>> 16 = 0 then sum else foldCarries fuel (foldCarry sum)

/-- `net_ip_checksum`. Two rounds are enough for a 32-bit sum (`foldCarries_spec`). -/
def netIpChecksum (data : List UInt8) : UInt16 := (~~~foldCarries 2 (sumWords 0 data)).toUInt16

theorem shift_toNat (sum : UInt32) : (sum >>> 16).toNat = sum.toNat / 65536 := by
  simp [UInt32.toNat_shiftRight, Nat.shiftRight_eq_div_pow]

theorem shift_eq_zero {sum : UInt32} : sum >>> 16 = 0 ↔ sum.toNat < 65536 := by
  rw [← UInt32.toNat_inj, shift_toNat]
  change sum.toNat / 65536 = 0 ↔ _
  omega

theorem foldCarry_toNat (sum : UInt32) :
    (foldCarry sum).toNat = sum.toNat % 65536 + sum.toNat / 65536 := by
  have bound := sum.toNat_lt
  have low : (sum &&& (0xFFFF : UInt32)).toNat = sum.toNat % 65536 := by
    have mask := Nat.and_two_pow_sub_one_eq_mod sum.toNat 16
    simpa using mask
  rw [foldCarry, UInt32.toNat_add, low, shift_toNat, Nat.mod_eq_of_lt (by omega)]

/-- Folding ends with 16 bits, keeps the sum modulo 65535 and does not make it
vanish. -/
theorem foldCarries_spec (sum : UInt32) :
    (foldCarries 2 sum).toNat < 65536 ∧ (foldCarries 2 sum).toNat % 65535 = sum.toNat % 65535 ∧
      ((foldCarries 2 sum).toNat = 0 ↔ sum.toNat = 0) := by
  have bound := sum.toNat_lt
  have once := foldCarry_toNat sum
  have twice := foldCarry_toNat (foldCarry sum)
  simp only [foldCarries, shift_eq_zero]
  split
  · omega
  · split
    · omega
    · omega

theorem sumWords_toNat (sum : UInt32) (data : List UInt8)
    (fits : sum.toNat + hostSum data < 2 ^ 32) :
    (sumWords sum data).toNat = sum.toNat + hostSum data := by
  induction sum, data using sumWords.induct with
  | case1 sum a b rest ih =>
    have ha := a.toNat_lt
    have hb := b.toNat_lt
    simp only [hostSum] at fits ⊢
    have word : (UInt32.ofNat (a.toNat + 256 * b.toNat)).toNat = a.toNat + 256 * b.toNat := by
      rw [UInt32.toNat_ofNat']
      omega
    have added : (sum + UInt32.ofNat (a.toNat + 256 * b.toNat)).toNat =
        sum.toNat + (a.toNat + 256 * b.toNat) := by
      rw [UInt32.toNat_add, word]
      omega
    rw [sumWords, ih (by omega), added]
    omega
  | case2 sum a =>
    simp only [hostSum] at fits ⊢
    rw [sumWords, UInt32.toNat_add, UInt8.toNat_toUInt32]
    omega
  | case3 sum => rfl

/-- **The code's checksum test.** `net_ip_checksum` answers 0 exactly for the
intact byte strings, if the string is short enough for a 32-bit sum. -/
theorem netIpChecksum_eq_zero {data : List UInt8} (short : data.length < 131000) :
    netIpChecksum data = 0 ↔ ChecksumValid data := by
  have small := hostSum_le data
  have start : (sumWords 0 data).toNat = hostSum data := by
    have summed := sumWords_toNat 0 data (by simp; omega)
    simpa using summed
  obtain ⟨below, congr, zero⟩ := foldCarries_spec (sumWords 0 data)
  rw [start] at congr zero
  rw [← ones_of_folded below congr zero, netIpChecksum, ← UInt16.toNat_inj]
  have inverted : (~~~foldCarries 2 (sumWords 0 data)).toNat =
      2 ^ 32 - 1 - (foldCarries 2 (sumWords 0 data)).toNat := by
    simp [UInt32.toNat_not]
  rw [UInt32.toNat_toUInt16, inverted]
  change _ = 0 ↔ _
  omega

/-! ### The headers -/

/-- `ETH_HLEN`, where the IPv4 header starts. -/
@[simp] def ethHlen : Nat := 14

/-- `sizeof(tcp_hdr_t)`: a TCP header without options. -/
@[simp] def tcpHdrSize : Nat := 20

/-- `ATM_TCP_MAX_PAYLOAD`. -/
@[simp] def tcpMaxPayload : Nat := 512

/-- `eth->ethertype`. -/
def ethertype (frame : Nat → UInt8) : UInt16 := netBswap16 (u16At frame 12)

/-- `ip->ver_ihl`. -/
def verIhl (frame : Nat → UInt8) : UInt8 := frame ethHlen

/-- The length of the IPv4 header, `(ip->ver_ihl&15)*4`. -/
def ihl (frame : Nat → UInt8) : Nat := (verIhl frame &&& 15).toNat * 4

/-- `ip->total_len`. -/
def ipLen (frame : Nat → UInt8) : Nat := (netBswap16 (u16At frame (ethHlen + 2))).toNat

/-- `ip->protocol`. -/
def protocol (frame : Nat → UInt8) : UInt8 := frame (ethHlen + 9)

/-- An IPv4 address. -/
structure Ip where
  a : UInt8
  b : UInt8
  c : UInt8
  d : UInt8
deriving DecidableEq

/-- The address in the four bytes from `off` on. -/
def ipAt (frame : Nat → UInt8) (off : Nat) : Ip :=
  ⟨frame off, frame (off + 1), frame (off + 2), frame (off + 3)⟩

/-- `ip->src_ip`. -/
def srcIp (frame : Nat → UInt8) : Ip := ipAt frame (ethHlen + 12)

/-- `ip->dst_ip`. -/
def dstIp (frame : Nat → UInt8) : Ip := ipAt frame (ethHlen + 16)

/-- Where the TCP header starts. -/
def tcpAt (frame : Nat → UInt8) : Nat := ethHlen + ihl frame

/-- `t->src_port`. -/
def srcPort (frame : Nat → UInt8) : UInt16 := netBswap16 (u16At frame (tcpAt frame))

/-- `t->dst_port`. -/
def dstPort (frame : Nat → UInt8) : UInt16 := netBswap16 (u16At frame (tcpAt frame + 2))

/-- `t->seq`. -/
def seqOf (frame : Nat → UInt8) : UInt32 := netBswap32 (u32At frame (tcpAt frame + 4))

/-- `t->ack`. -/
def ackOf (frame : Nat → UInt8) : UInt32 := netBswap32 (u32At frame (tcpAt frame + 8))

/-- The length of the TCP header, `(tcp->data_off>>4)*4`. -/
def thl (frame : Nat → UInt8) : Nat := (frame (tcpAt frame + 12) >>> 4).toNat * 4

/-- `t->flags`. -/
def flagsOf (frame : Nat → UInt8) : UInt8 := frame (tcpAt frame + 13)

/-- `t->window`. -/
def windowOf (frame : Nat → UInt8) : UInt16 := netBswap16 (u16At frame (tcpAt frame + 14))

/-- The length of the segment, `ip_len-ihl`. -/
def segmentLen (frame : Nat → UInt8) : Nat := ipLen frame - ihl frame

/-- The IPv4 header with its options. -/
def ipHeader (frame : Nat → UInt8) : List UInt8 := bytes frame ethHlen (ihl frame)

/-- The segment: the TCP header and what follows it, up to `total_len`. -/
def segment (frame : Nat → UInt8) : List UInt8 := bytes frame (tcpAt frame) (segmentLen frame)

/-- The bytes after the TCP header. -/
def payload (frame : Nat → UInt8) : List UInt8 :=
  bytes frame (tcpAt frame + thl frame) (ipLen frame - ihl frame - thl frame)

/-- `tcp_pseudo_t` for a segment of `len` bytes: both addresses, a zero byte, the
protocol and the length in network order. -/
def pseudoHeader (frame : Nat → UInt8) (len : UInt16) : List UInt8 :=
  bytes frame (ethHlen + 12) 4 ++ bytes frame (ethHlen + 16) 4 ++
    ([0, 6, (len >>> 8).toUInt8, len.toUInt8] : List UInt8)

/-! ### Validation -/

/-- `tcp_checksum` of the `len` bytes from the TCP header on. The buffer it is
computed in has room for a header without options and `ATM_TCP_MAX_PAYLOAD`
bytes; for a longer segment the answer is 0. -/
def tcpChecksum (frame : Nat → UInt8) (len : UInt16) : UInt16 :=
  if len.toNat > tcpHdrSize + tcpMaxPayload then 0
  else netIpChecksum (pseudoHeader frame len ++ bytes frame (tcpAt frame) len.toNat)

/-- `tcp_validate_frame`: whether it returns 0. The offsets and lengths that it
reports are `ethHlen`, `tcpAt`, `ihl` and `ipLen` of the frame. -/
def tcpValidateFrame (frame : Nat → UInt8) (n : Int) : Bool :=
  if n < ethHlen + 20 + tcpHdrSize then false
  else if ethertype frame ≠ 0x0800 ∨ verIhl frame >>> 4 ≠ 4 ∨ protocol frame ≠ 6 ∨
      ihl frame < 20 ∨ ihl frame > 60 ∨ n < ethHlen + ihl frame + tcpHdrSize ∨
      netIpChecksum (ipHeader frame) ≠ 0 then false
  else if ipLen frame < ihl frame + tcpHdrSize ∨ (ipLen frame : Int) > n - ethHlen then false
  else if thl frame < tcpHdrSize ∨ thl frame > 60 ∨ ipLen frame < ihl frame + thl frame ∨
      tcpChecksum frame (UInt16.ofNat (segmentLen frame)) ≠ 0 then false
  else true

/-- The segment behind its pseudo header, over which the TCP checksum is taken. -/
def checkedSegment (frame : Nat → UInt8) : List UInt8 :=
  pseudoHeader frame (UInt16.ofNat (segmentLen frame)) ++ segment frame

/-- What validation asks of the `n` received bytes apart from the TCP checksum:
IPv4 with an intact header, TCP, and lengths that nest. -/
structure Wellformed (frame : Nat → UInt8) (n : Int) : Prop where
  ethernet : ethertype frame = 0x0800
  version : verIhl frame >>> 4 = 4
  tcp : protocol frame = 6
  ihlLow : 20 ≤ ihl frame
  ihlHigh : ihl frame ≤ 60
  thlLow : 20 ≤ thl frame
  thlHigh : thl frame ≤ 60
  nested : ihl frame + thl frame ≤ ipLen frame
  inside : (ethHlen + ipLen frame : Int) ≤ n
  ipIntact : ChecksumValid (ipHeader frame)

/-- What an accepted frame should be: both checksums are right, and the headers
and the payload lie inside the `n` received bytes. -/
structure Authentic (frame : Nat → UInt8) (n : Int) : Prop where
  ipIntact : ChecksumValid (ipHeader frame)
  tcpIntact : ChecksumValid (checkedSegment frame)
  ipInside : (ethHlen + ihl frame : Int) ≤ n
  tcpInside : (tcpAt frame + thl frame : Int) ≤ n
  payloadInside : (tcpAt frame + thl frame + (payload frame).length : Int) ≤ n

theorem ihl_le (frame : Nat → UInt8) : ihl frame ≤ 60 := by
  have nibble : (verIhl frame &&& 15).toNat ≤ 15 := by
    rw [UInt8.toNat_and]
    exact Nat.and_le_right
  unfold ihl
  omega

theorem segmentLen_lt (frame : Nat → UInt8) : segmentLen frame < 65536 := by
  have bound := (netBswap16 (u16At frame (ethHlen + 2))).toNat_lt
  unfold segmentLen ipLen
  omega

/-- The TCP checksum test is passed by intact segments and by those that are too
long for the checksum buffer. -/
theorem tcpChecksum_eq_zero (frame : Nat → UInt8) :
    tcpChecksum frame (UInt16.ofNat (segmentLen frame)) = 0 ↔
      532 < segmentLen frame ∨ ChecksumValid (checkedSegment frame) := by
  have bound := segmentLen_lt frame
  have exact16 : (UInt16.ofNat (segmentLen frame)).toNat = segmentLen frame :=
    UInt16.toNat_ofNat_of_lt' bound
  unfold tcpChecksum
  rw [exact16]
  by_cases long : 532 < segmentLen frame
  · simp [long]
  · have short : (checkedSegment frame).length < 131000 := by
      simp only [checkedSegment, pseudoHeader, segment, List.length_append, length_bytes,
        List.length_cons, List.length_nil]
      omega
    rw [if_neg (by simpa using long)]
    refine (netIpChecksum_eq_zero short).trans ?_
    simp [long]

/-- **What `tcp_validate_frame` accepts.** -/
theorem tcpValidateFrame_iff (frame : Nat → UInt8) (n : Int) :
    tcpValidateFrame frame n = true ↔ Wellformed frame n ∧
      (532 < segmentLen frame ∨ ChecksumValid (checkedSegment frame)) := by
  have ihlHigh := ihl_le frame
  have headerShort : (ipHeader frame).length < 131000 := by
    simp only [ipHeader, length_bytes]
    omega
  rw [← tcpChecksum_eq_zero]
  unfold tcpValidateFrame
  constructor
  · intro accepted
    split at accepted
    · cases accepted
    split at accepted
    · cases accepted
    rename_i header
    split at accepted
    · cases accepted
    rename_i lengths
    split at accepted
    · cases accepted
    rename_i tail
    simp only [not_or, not_not, Nat.not_lt, Int.not_lt, tcpHdrSize, ethHlen] at header lengths tail
    obtain ⟨ethernet, version, tcp, ihlLow, _, _, ipSum⟩ := header
    obtain ⟨thlLow, thlHigh, nested, tcpSum⟩ := tail
    have ipIntact := (netIpChecksum_eq_zero headerShort).mp ipSum
    exact ⟨⟨ethernet, version, tcp, ihlLow, ihlHigh, thlLow, thlHigh, nested,
      by simp only [ethHlen]; omega, ipIntact⟩, tcpSum⟩
  · rintro ⟨ok, tcpSum⟩
    have inside := ok.inside
    have nested := ok.nested
    have ihlLow := ok.ihlLow
    have thlLow := ok.thlLow
    have ipSum := (netIpChecksum_eq_zero headerShort).mpr ok.ipIntact
    simp only [ethHlen] at inside
    rw [if_neg (by simp only [ethHlen, tcpHdrSize]; omega), if_neg, if_neg, if_neg]
    · simp only [tcpHdrSize, not_or, not_not]
      exact ⟨by omega, by have := ok.thlHigh; omega, by omega, tcpSum⟩
    · simp only [tcpHdrSize, ethHlen]
      omega
    · simp only [tcpHdrSize, ethHlen, not_or, not_not]
      exact ⟨ok.ethernet, ok.version, ok.tcp, by omega, by omega, by omega, ipSum⟩

/-- **Acceptance vouches for the TCP checksum unless the segment is longer than
the checksum buffer.** An accepted frame is authentic exactly if it is not one
whose segment exceeds 532 bytes and carries a wrong checksum. -/
theorem frame_authentic (frame : Nat → UInt8) (n : Int) :
    (tcpValidateFrame frame n = true → Authentic frame n) ↔
      ¬(Wellformed frame n ∧ 532 < segmentLen frame ∧ ¬ChecksumValid (checkedSegment frame)) := by
  rw [tcpValidateFrame_iff]
  constructor
  · rintro authentic ⟨ok, long, forged⟩
    exact forged (authentic ⟨ok, .inl long⟩).tcpIntact
  · rintro condition ⟨ok, verified⟩
    have intact : ChecksumValid (checkedSegment frame) := by
      by_contra forged
      exact condition ⟨ok, verified.resolve_right forged, forged⟩
    have inside := ok.inside
    have nested := ok.nested
    refine ⟨ok.ipIntact, intact, ?_, ?_, ?_⟩
    · omega
    · unfold tcpAt
      omega
    · simp only [payload, length_bytes, tcpAt]
      omega

/-- A frame with a segment of 533 bytes, all zero but for the header length, and
no checksum. -/
def unchecked : Nat → UInt8
  | 12 => 0x08 | 14 => 0x45 | 16 => 0x02 | 17 => 0x29 | 23 => 6 | 24 => 0xB8 | 25 => 0xD0
  | 46 => 0x50
  | _ => 0

/-- **Counterexample.** The frame is accepted, and its TCP checksum is wrong. -/
theorem unchecked_accepted :
    tcpValidateFrame unchecked 567 = true ∧ ¬Authentic unchecked 567 := by
  refine ⟨by decide, fun authentic => ?_⟩
  have wrong : ¬ChecksumValid (checkedSegment unchecked) := by decide +kernel
  exact wrong authentic.tcpIntact

end AtmKoala.Net
