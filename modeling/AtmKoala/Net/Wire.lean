import AtmKoala.Net.Tcp

/-!
The segments that `tcp_send_control` and `atm_tcp_send` put on the wire, byte by
byte.
-/

namespace AtmKoala.Net

/-- A 16-bit field in network order. -/
def be16 (v : UInt16) : List UInt8 := [(v >>> 8).toUInt8, v.toUInt8]

/-- A 32-bit field in network order. -/
def be32 (v : UInt32) : List UInt8 :=
  [(v >>> 24).toUInt8, (v >>> 16).toUInt8, (v >>> 8).toUInt8, v.toUInt8]

/-- A 16-bit field as the host stores it. -/
def le16 (v : UInt16) : List UInt8 := [v.toUInt8, (v >>> 8).toUInt8]

/-- The four bytes of an address. -/
def Ip.bytes (ip : Ip) : List UInt8 := [ip.a, ip.b, ip.c, ip.d]

/-- An IPv4 header without options. -/
def ipHeaderBytes (src dst : Ip) (totalLen sum : UInt16) : List UInt8 :=
  [0x45, 0] ++ be16 totalLen ++ [0, 0, 0, 0, 64, 6] ++ le16 sum ++ src.bytes ++ dst.bytes

/-- A TCP header without options. -/
def tcpHeaderBytes (srcPort dstPort : UInt16) (seq ack : UInt32) (flags : UInt8)
    (window sum : UInt16) : List UInt8 :=
  be16 srcPort ++ be16 dstPort ++ be32 seq ++ be32 ack ++ [0x50, flags] ++ be16 window ++
    le16 sum ++ [0, 0]

/-- A segment in its frame, as `atm_tcp_send` fills it in (`tcp_send_control` does
the same without data). -/
def segmentFrame (dstMac srcMac : List UInt8) (src dst : Ip) (srcPort dstPort : UInt16)
    (seq ack : UInt32) (flags : UInt8) (window : UInt16) (data : List UInt8) : List UInt8 :=
  let totalLen := UInt16.ofNat (40 + data.length)
  let ipSum := netIpChecksum (ipHeaderBytes src dst totalLen 0)
  let pseudo := src.bytes ++ dst.bytes ++ [0, 6] ++ be16 (UInt16.ofNat (20 + data.length))
  let tcpSum :=
    netIpChecksum (pseudo ++ tcpHeaderBytes srcPort dstPort seq ack flags window 0 ++ data)
  dstMac ++ srcMac ++ [0x08, 0x00] ++ ipHeaderBytes src dst totalLen ipSum ++
    tcpHeaderBytes srcPort dstPort seq ack flags window tcpSum ++ data

/-- A receive buffer with a frame in it. -/
def bufferOf (frame : List UInt8) : Nat → UInt8 := fun k => frame.getD k 0

end AtmKoala.Net
