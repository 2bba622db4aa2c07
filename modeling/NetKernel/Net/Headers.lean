import NetKernel.Net.Buffer

/-! Packed protocol headers. A header keeps its 16-bit fields as the machine
loads them; `bswap16` is applied where the code applies it. -/
namespace NetKernel.Headers
open Words Buffers

structure Mac where
  (b0 b1 b2 b3 b4 b5 : UInt8)
deriving DecidableEq, Repr

structure Ip where
  (b0 b1 b2 b3 : UInt8)
deriving DecidableEq, Repr

def Mac.bytes (m : Mac) : List UInt8 := [m.b0, m.b1, m.b2, m.b3, m.b4, m.b5]
def Ip.bytes (p : Ip) : List UInt8 := [p.b0, p.b1, p.b2, p.b3]

def Mac.broadcast : Mac := ⟨0xFF, 0xFF, 0xFF, 0xFF, 0xFF, 0xFF⟩
def Mac.zero : Mac := ⟨0, 0, 0, 0, 0, 0⟩

structure EthernetHeader where
  (dst src : Mac)
  etherType : UInt16
deriving DecidableEq, Repr

structure ArpPacket where
  (htype ptype : UInt16)
  (hlen plen : UInt8)
  oper : UInt16
  sha : Mac
  spa : Ip
  tha : Mac
  tpa : Ip
deriving DecidableEq, Repr

structure Ipv4Header where
  (versionIhl tos : UInt8)
  (totalLength identification flagsFragment : UInt16)
  (ttl protocol : UInt8)
  headerChecksum : UInt16
  (srcIp dstIp : Ip)
deriving DecidableEq, Repr

structure IcmpEchoHeader where
  (type code : UInt8)
  (checksum identifier sequence : UInt16)
deriving DecidableEq, Repr

structure UdpHeader where
  (srcPort dstPort length checksum : UInt16)
deriving DecidableEq, Repr

def ethTypeArp : UInt16 := 0x0806
def ethTypeIpv4 : UInt16 := 0x0800
def arpHtypeEthernet : UInt16 := 1
def arpPtypeIpv4 : UInt16 := 0x0800
def arpOpRequest : UInt16 := 1
def arpOpReply : UInt16 := 2
def ipv4ProtoIcmp : UInt8 := 1
def ipv4ProtoUdp : UInt8 := 17
def icmpEchoReply : UInt8 := 0
def icmpEchoRequest : UInt8 := 8

/-- `sizeof` of the packed headers. -/
abbrev sizeofEthernetHeader : Nat := 14
abbrev sizeofArpPacket : Nat := 28
abbrev sizeofIpv4Header : Nat := 20
abbrev sizeofIcmpEchoHeader : Nat := 8
abbrev sizeofUdpHeader : Nat := 8

def EthernetHeader.bytes (e : EthernetHeader) : List UInt8 :=
  e.dst.bytes ++ e.src.bytes ++ store16 e.etherType

def ArpPacket.bytes (a : ArpPacket) : List UInt8 :=
  store16 a.htype ++ store16 a.ptype ++ [a.hlen, a.plen] ++ store16 a.oper ++
    a.sha.bytes ++ a.spa.bytes ++ a.tha.bytes ++ a.tpa.bytes

def Ipv4Header.bytes (p : Ipv4Header) : List UInt8 :=
  [p.versionIhl, p.tos] ++ store16 p.totalLength ++ store16 p.identification ++
    store16 p.flagsFragment ++ [p.ttl, p.protocol] ++ store16 p.headerChecksum ++
    p.srcIp.bytes ++ p.dstIp.bytes

def IcmpEchoHeader.bytes (i : IcmpEchoHeader) : List UInt8 :=
  [i.type, i.code] ++ store16 i.checksum ++ store16 i.identifier ++ store16 i.sequence

def UdpHeader.bytes (u : UdpHeader) : List UInt8 :=
  store16 u.srcPort ++ store16 u.dstPort ++ store16 u.length ++ store16 u.checksum

def readMac (b : Buffer) (off : Nat) : Except Fault Mac := do
  let b0 ← read b off
  let b1 ← read b (off+1)
  let b2 ← read b (off+2)
  let b3 ← read b (off+3)
  let b4 ← read b (off+4)
  let b5 ← read b (off+5)
  .ok ⟨b0, b1, b2, b3, b4, b5⟩

def readIp (b : Buffer) (off : Nat) : Except Fault Ip := do
  let b0 ← read b off
  let b1 ← read b (off+1)
  let b2 ← read b (off+2)
  let b3 ← read b (off+3)
  .ok ⟨b0, b1, b2, b3⟩

def EthernetHeader.read (b : Buffer) (off : Nat) : Except Fault EthernetHeader := do
  let dst ← readMac b off
  let src ← readMac b (off+6)
  let etherType ← read16 b (off+12)
  .ok ⟨dst, src, etherType⟩

def ArpPacket.read (b : Buffer) (off : Nat) : Except Fault ArpPacket := do
  let htype ← read16 b off
  let ptype ← read16 b (off+2)
  let hlen ← Buffers.read b (off+4)
  let plen ← Buffers.read b (off+5)
  let oper ← read16 b (off+6)
  let sha ← readMac b (off+8)
  let spa ← readIp b (off+14)
  let tha ← readMac b (off+18)
  let tpa ← readIp b (off+24)
  .ok ⟨htype, ptype, hlen, plen, oper, sha, spa, tha, tpa⟩

def Ipv4Header.read (b : Buffer) (off : Nat) : Except Fault Ipv4Header := do
  let versionIhl ← Buffers.read b off
  let tos ← Buffers.read b (off+1)
  let totalLength ← read16 b (off+2)
  let identification ← read16 b (off+4)
  let flagsFragment ← read16 b (off+6)
  let ttl ← Buffers.read b (off+8)
  let protocol ← Buffers.read b (off+9)
  let headerChecksum ← read16 b (off+10)
  let srcIp ← readIp b (off+12)
  let dstIp ← readIp b (off+16)
  .ok ⟨versionIhl, tos, totalLength, identification, flagsFragment, ttl, protocol,
    headerChecksum, srcIp, dstIp⟩

def IcmpEchoHeader.read (b : Buffer) (off : Nat) : Except Fault IcmpEchoHeader := do
  let type ← Buffers.read b off
  let code ← Buffers.read b (off+1)
  let checksum ← read16 b (off+2)
  let identifier ← read16 b (off+4)
  let sequence ← read16 b (off+6)
  .ok ⟨type, code, checksum, identifier, sequence⟩

def UdpHeader.read (b : Buffer) (off : Nat) : Except Fault UdpHeader := do
  let srcPort ← read16 b off
  let dstPort ← read16 b (off+2)
  let length ← read16 b (off+4)
  let checksum ← read16 b (off+6)
  .ok ⟨srcPort, dstPort, length, checksum⟩

/-! The value a header read returns when the header lies in its buffer. -/

def word (b : Buffer) (off : Nat) : UInt16 := load16 (b.byte off) (b.byte (off+1))

def macAt (b : Buffer) (off : Nat) : Mac :=
  ⟨b.byte off, b.byte (off+1), b.byte (off+2), b.byte (off+3), b.byte (off+4), b.byte (off+5)⟩

def ipAt (b : Buffer) (off : Nat) : Ip :=
  ⟨b.byte off, b.byte (off+1), b.byte (off+2), b.byte (off+3)⟩

def ethernetAt (b : Buffer) (off : Nat) : EthernetHeader :=
  ⟨macAt b off, macAt b (off+6), word b (off+12)⟩

def arpAt (b : Buffer) (off : Nat) : ArpPacket :=
  ⟨word b off, word b (off+2), b.byte (off+4), b.byte (off+5), word b (off+6),
    macAt b (off+8), ipAt b (off+14), macAt b (off+18), ipAt b (off+24)⟩

def ipv4At (b : Buffer) (off : Nat) : Ipv4Header :=
  ⟨b.byte off, b.byte (off+1), word b (off+2), word b (off+4), word b (off+6),
    b.byte (off+8), b.byte (off+9), word b (off+10), ipAt b (off+12), ipAt b (off+16)⟩

def icmpAt (b : Buffer) (off : Nat) : IcmpEchoHeader :=
  ⟨b.byte off, b.byte (off+1), word b (off+2), word b (off+4), word b (off+6)⟩

def udpAt (b : Buffer) (off : Nat) : UdpHeader :=
  ⟨word b off, word b (off+2), word b (off+4), word b (off+6)⟩

theorem readMac_ok (b : Buffer) (off : Nat) (h : off+6 ≤ b.size) :
    readMac b off = .ok (macAt b off) := by
  simp (disch := omega) only [readMac, read_ok, ok_bind, macAt]

theorem readIp_ok (b : Buffer) (off : Nat) (h : off+4 ≤ b.size) :
    readIp b off = .ok (ipAt b off) := by
  simp (disch := omega) only [readIp, read_ok, ok_bind, ipAt]

theorem EthernetHeader.read_ok (b : Buffer) (off : Nat) (h : off+14 ≤ b.size) :
    EthernetHeader.read b off = .ok (ethernetAt b off) := by
  simp (disch := omega) only [EthernetHeader.read, readMac_ok, read16_ok, ok_bind, ethernetAt, word]

theorem ArpPacket.read_ok (b : Buffer) (off : Nat) (h : off+28 ≤ b.size) :
    ArpPacket.read b off = .ok (arpAt b off) := by
  simp (disch := omega) only [ArpPacket.read, Buffers.read_ok, readMac_ok, readIp_ok, read16_ok,
    ok_bind, arpAt, word]

theorem Ipv4Header.read_ok (b : Buffer) (off : Nat) (h : off+20 ≤ b.size) :
    Ipv4Header.read b off = .ok (ipv4At b off) := by
  simp (disch := omega) only [Ipv4Header.read, Buffers.read_ok, readIp_ok, read16_ok, ok_bind,
    ipv4At, word]

theorem IcmpEchoHeader.read_ok (b : Buffer) (off : Nat) (h : off+8 ≤ b.size) :
    IcmpEchoHeader.read b off = .ok (icmpAt b off) := by
  simp (disch := omega) only [IcmpEchoHeader.read, Buffers.read_ok, read16_ok, ok_bind, icmpAt, word]

theorem UdpHeader.read_ok (b : Buffer) (off : Nat) (h : off+8 ≤ b.size) :
    UdpHeader.read b off = .ok (udpAt b off) := by
  simp (disch := omega) only [UdpHeader.read, read16_ok, ok_bind, udpAt, word]

@[simp] theorem EthernetHeader.length_bytes (e : EthernetHeader) : e.bytes.length = 14 := rfl
@[simp] theorem ArpPacket.length_bytes (a : ArpPacket) : a.bytes.length = 28 := rfl
@[simp] theorem Ipv4Header.length_bytes (p : Ipv4Header) : p.bytes.length = 20 := rfl
@[simp] theorem IcmpEchoHeader.length_bytes (i : IcmpEchoHeader) : i.bytes.length = 8 := rfl
@[simp] theorem UdpHeader.length_bytes (u : UdpHeader) : u.bytes.length = 8 := rfl

/-! A header written anywhere in a buffer is the header read there. -/

theorem ethernetAt_append (r : Region) (e : EthernetHeader) (rest : List UInt8) :
    ethernetAt ⟨r, e.bytes ++ rest⟩ 0 = e := by
  have h : ethernetAt ⟨r, e.bytes ++ rest⟩ 0 =
      ⟨e.dst, e.src, load16 (lowByte e.etherType) (highByte e.etherType)⟩ := rfl
  rw [h, load16_low_high]

theorem ipv4At_append (r : Region) (l : List UInt8) (p : Ipv4Header) (rest : List UInt8)
    (off : Nat) (ho : off = l.length) : ipv4At ⟨r, l ++ (p.bytes ++ rest)⟩ off = p := by
  subst ho
  have hb := byte_append r l (p.bytes ++ rest)
  have h : ipv4At ⟨r, p.bytes ++ rest⟩ 0 = ⟨p.versionIhl, p.tos,
      load16 (lowByte p.totalLength) (highByte p.totalLength),
      load16 (lowByte p.identification) (highByte p.identification),
      load16 (lowByte p.flagsFragment) (highByte p.flagsFragment), p.ttl, p.protocol,
      load16 (lowByte p.headerChecksum) (highByte p.headerChecksum), p.srcIp, p.dstIp⟩ := rfl
  calc ipv4At ⟨r, l ++ (p.bytes ++ rest)⟩ l.length
      = ipv4At ⟨r, p.bytes ++ rest⟩ 0 := by
        have h0 := hb 0
        simp only [Nat.add_zero] at h0
        simp only [ipv4At, word, ipAt, Nat.add_assoc, hb, h0, Nat.zero_add]
    _ = p := by simp only [h, load16_low_high]

theorem udpAt_append (r : Region) (l : List UInt8) (u : UdpHeader) (rest : List UInt8)
    (off : Nat) (ho : off = l.length) : udpAt ⟨r, l ++ (u.bytes ++ rest)⟩ off = u := by
  subst ho
  have hb := byte_append r l (u.bytes ++ rest)
  have h : udpAt ⟨r, u.bytes ++ rest⟩ 0 =
      ⟨load16 (lowByte u.srcPort) (highByte u.srcPort),
        load16 (lowByte u.dstPort) (highByte u.dstPort),
        load16 (lowByte u.length) (highByte u.length),
        load16 (lowByte u.checksum) (highByte u.checksum)⟩ := rfl
  calc udpAt ⟨r, l ++ (u.bytes ++ rest)⟩ l.length
      = udpAt ⟨r, u.bytes ++ rest⟩ 0 := by
        have h0 := hb 0
        simp only [Nat.add_zero] at h0
        simp only [udpAt, word, Nat.add_assoc, hb, h0, Nat.zero_add]
    _ = u := by simp only [h, load16_low_high]

theorem icmpAt_append (r : Region) (l : List UInt8) (i : IcmpEchoHeader) (rest : List UInt8)
    (off : Nat) (ho : off = l.length) : icmpAt ⟨r, l ++ (i.bytes ++ rest)⟩ off = i := by
  subst ho
  have hb := byte_append r l (i.bytes ++ rest)
  have h : icmpAt ⟨r, i.bytes ++ rest⟩ 0 = ⟨i.type, i.code,
      load16 (lowByte i.checksum) (highByte i.checksum),
      load16 (lowByte i.identifier) (highByte i.identifier),
      load16 (lowByte i.sequence) (highByte i.sequence)⟩ := rfl
  calc icmpAt ⟨r, l ++ (i.bytes ++ rest)⟩ l.length
      = icmpAt ⟨r, i.bytes ++ rest⟩ 0 := by
        have h0 := hb 0
        simp only [Nat.add_zero] at h0
        simp only [icmpAt, word, Nat.add_assoc, hb, h0, Nat.zero_add]
    _ = i := by simp only [h, load16_low_high]

end NetKernel.Headers
