import WindCloud.Lib.ByteOrder
import WindCloud.Lib.PrefixCode
import Mathlib.Data.List.TakeWhile
/-!
# The TLV protocol: packets, payload structures and the command line

| here | there |
| --- | --- |
| `CmdType`, `StatusCode`        | `cmd_type_t`, `status_code_t` (`protocol.h:88`, `:115`) |
| `TlvHeader`, `Packet`          | `tlv_header_t`, `packet_t` (`protocol.h:156`, `:175`) |
| `TlvHeader.hton`, `.ntoh`      | the conversions in `send_packet`, `recv_packet` (`protocol.c:321-331`, `:393-397`) |
| `hostToNetU64`, `netToHostU64` | `protocol.c:200-218` |
| `fileInfoPayload`, `resumePayload` | `file_info_payload_t`, `resume_payload_t` (`protocol.h:221`, `:236`) as they lie in memory |
| `extractFileInfo`, `extractResumeOffset`, `copyStringPayload` | `handle.c:305`, `:329`, `:61` |
| `parseCommandRequest`          | `protocol.c:150` |

A C string is the list of its bytes before the terminating NUL. `Packet.wire` is what a
packet is on the connection; valid packets are a prefix code (`wire_code`), which is all
that the statements about streams use.
-/

namespace WindCloud

open ByteOrder Interaction

abbrev Bytes := List UInt8

/-- The bytes of a literal of the source, which is UTF-8. -/
def lit (s : String) : Bytes := s.toUTF8.data.toList

def pathMax : Nat := 4096
def tlvMagic : UInt32 := 0x544C5631
def tlvVersion : UInt32 := 1
def maxPacketPayload : UInt32 := 64 * 1024
def maxTextPayload : Nat := 4096
def fileBlockSize : Nat := 4096

/-- Both programs run on little-endian hosts; the wire format does not depend on it
(`bytes_hton`, `ntoh_load`). -/
def host : Endian := .little

inductive CmdType where
  | invalid | pwd | cd | ls | rm | mkdir
  | putsReq | putsResp | getsReq | getsResp | resumePos | fileData | fileEnd | ack | error
deriving DecidableEq, Repr

namespace CmdType

def code : CmdType → UInt32
  | invalid => 0 | pwd => 1 | cd => 2 | ls => 3 | rm => 4 | mkdir => 5
  | putsReq => 6 | putsResp => 7 | getsReq => 8 | getsResp => 9 | resumePos => 10
  | fileData => 11 | fileEnd => 12 | ack => 13 | error => 14

def all : List CmdType :=
  [invalid, pwd, cd, ls, rm, mkdir, putsReq, putsResp, getsReq, getsResp, resumePos, fileData,
    fileEnd, ack, error]

/-- `(cmd_type_t)code`; `none` for a number the enumeration does not name. -/
def ofCode (c : UInt32) : Option CmdType := all.find? (·.code == c)

@[simp] theorem ofCode_code (t : CmdType) : ofCode t.code = some t := by cases t <;> rfl

theorem ofCode_eq {c : UInt32} {t : CmdType} (h : ofCode c = some t) : c = t.code := by
  have := List.find?_some h
  exact (by simpa using this : t.code = c).symm

@[simp] theorem code_inj {s t : CmdType} : s.code = t.code ↔ s = t :=
  ⟨fun h => Option.some.inj (by rw [← ofCode_code s, h, ofCode_code]), congrArg code⟩

end CmdType

inductive StatusCode where
  | ok | badRequest | notFound | ioError | protocolError
deriving DecidableEq, Repr

def StatusCode.code : StatusCode → UInt32
  | ok => 0 | badRequest => 1 | notFound => 2 | ioError => 3 | protocolError => 4

/-! ## Headers -/

@[ext] structure TlvHeader where
  magic : UInt32
  version : UInt32
  cmdType : UInt32
  status : UInt32
  dataLen : UInt32
deriving DecidableEq, Repr

namespace TlvHeader

/-- What `send_packet` puts in a header (`protocol.c:321`). -/
def of (type : CmdType) (status : StatusCode) (dataLen : UInt32) : TlvHeader :=
  ⟨tlvMagic, tlvVersion, type.code, status.code, dataLen⟩

def hton (e : Endian) (h : TlvHeader) : TlvHeader :=
  ⟨e.htonl h.magic, e.htonl h.version, e.htonl h.cmdType, e.htonl h.status, e.htonl h.dataLen⟩

def ntoh (e : Endian) (h : TlvHeader) : TlvHeader :=
  ⟨e.ntohl h.magic, e.ntohl h.version, e.ntohl h.cmdType, e.ntohl h.status, e.ntohl h.dataLen⟩

/-- The structure as it lies in memory: five fields of four bytes, no padding. -/
def bytes (e : Endian) (h : TlvHeader) : Bytes :=
  e.mem32 h.magic ++ e.mem32 h.version ++ e.mem32 h.cmdType ++ e.mem32 h.status ++ e.mem32 h.dataLen

/-- The structure whose memory is `bs`. -/
def load (e : Endian) (bs : Bytes) : TlvHeader :=
  ⟨e.load32 (bs.take 4), e.load32 ((bs.drop 4).take 4), e.load32 ((bs.drop 8).take 4),
    e.load32 ((bs.drop 12).take 4), e.load32 ((bs.drop 16).take 4)⟩

/-- The header on the wire: five big-endian integers. -/
def wire (h : TlvHeader) : Bytes :=
  beBytes 4 h.magic.toNat ++ beBytes 4 h.version.toNat ++ beBytes 4 h.cmdType.toNat ++
    beBytes 4 h.status.toNat ++ beBytes 4 h.dataLen.toNat

/-- The header that 20 wire bytes stand for. -/
def ofWire (bs : Bytes) : TlvHeader :=
  ⟨.ofNat (beVal (bs.take 4)), .ofNat (beVal ((bs.drop 4).take 4)),
    .ofNat (beVal ((bs.drop 8).take 4)), .ofNat (beVal ((bs.drop 12).take 4)),
    .ofNat (beVal ((bs.drop 16).take 4))⟩

/-- `recv_packet` accepts the header (`protocol.c:403-415`). -/
def Ok (h : TlvHeader) : Prop :=
  h.magic = tlvMagic ∧ h.version = tlvVersion ∧ h.dataLen ≤ maxPacketPayload

instance (h : TlvHeader) : Decidable h.Ok := inferInstanceAs (Decidable (_ ∧ _ ∧ _))

@[simp] theorem length_wire (h : TlvHeader) : h.wire.length = 20 := by simp [wire]

theorem bytes_hton (e : Endian) (h : TlvHeader) : (h.hton e).bytes e = h.wire := by
  simp [bytes, hton, wire, Endian.mem32_htonl]

theorem ntoh_load (e : Endian) {bs : Bytes} (h : bs.length = 20) : (load e bs).ntoh e = ofWire bs := by
  simp only [load, ntoh, ofWire]
  congr 1 <;> exact e.ntohl_load32 (by simp; omega)

private theorem ofNat_beVal (x : UInt32) : UInt32.ofNat (beVal (beBytes 4 x.toNat)) = x := by
  have hx := x.toNat_lt
  rw [beVal_beBytes, Nat.mod_eq_of_lt (by omega), UInt32.ofNat_toNat]

@[simp] theorem ofWire_wire (h : TlvHeader) : ofWire h.wire = h := by
  have h4 (x : UInt32) : (beBytes 4 x.toNat).length = 4 := length_beBytes ..
  have ht (x : UInt32) : (beBytes 4 x.toNat).take 4 = beBytes 4 x.toNat :=
    List.take_of_length_le (h4 x).le
  have hd (k : Nat) (x : UInt32) : (beBytes 4 x.toNat).drop (4 + k) = [] :=
    List.drop_eq_nil_of_le (by simp [h4])
  simp [ofWire, wire, List.drop_append, h4, ht, hd 4, hd 8, hd 12, ofNat_beVal]

private theorem beBytes_ofNat {bs : Bytes} (h : bs.length = 4) :
    beBytes 4 (UInt32.ofNat (beVal bs)).toNat = bs := by
  have hlt := beVal_lt bs
  rw [h] at hlt
  rw [UInt32.toNat_ofNat_of_lt' hlt]
  simpa [h] using beBytes_beVal bs

theorem wire_ofWire {bs : Bytes} (h : bs.length = 20) : (ofWire bs).wire = bs := by
  simp only [ofWire, wire]
  rw [beBytes_ofNat, beBytes_ofNat, beBytes_ofNat, beBytes_ofNat, beBytes_ofNat] <;>
    try (simp; omega)
  rw [← List.drop_drop (i := 4) (j := 12), ← List.drop_drop (i := 4) (j := 8),
    ← List.drop_drop (i := 4) (j := 4)]
  rw [List.take_of_length_le (l := ((bs.drop 4).drop 4).drop 4 |>.drop 4) (by simp; omega)]
  simp only [List.append_assoc, List.take_append_drop]

theorem wire_inj {g h : TlvHeader} (he : g.wire = h.wire) : g = h := by
  rw [← ofWire_wire g, he, ofWire_wire]

end TlvHeader

/-! ## 64-bit fields -/

/-- `((uint64_t)hi << 32) | lo`. -/
def join (hi lo : UInt32) : UInt64 := (hi.toUInt64 <<< 32) ||| lo.toUInt64
/-- `(uint32_t)(v >> 32)`. -/
def high (v : UInt64) : UInt32 := (v >>> 32).toUInt32
/-- `(uint32_t)(v & 0xffffffffU)`. -/
def low (v : UInt64) : UInt32 := (v &&& 0xffffffff).toUInt32

/-- The converted low half goes to the high bits (`protocol.c:200`). -/
def hostToNetU64 (e : Endian) (v : UInt64) : UInt64 := join (e.htonl (low v)) (e.htonl (high v))
def netToHostU64 (e : Endian) (v : UInt64) : UInt64 := join (e.ntohl (low v)) (e.ntohl (high v))

theorem toNat_join (hi lo : UInt32) : (join hi lo).toNat = hi.toNat * 2 ^ 32 + lo.toNat := by
  have h1 := hi.toNat_lt
  have h2 := lo.toNat_lt
  have h := Nat.shiftLeft_add_eq_or_of_lt (i := 32) (b := lo.toNat) h2 hi.toNat
  rw [Nat.shiftLeft_eq] at h
  have hs : hi.toNat * 2 ^ 32 % 2 ^ 64 = hi.toNat * 2 ^ 32 := Nat.mod_eq_of_lt (by omega)
  rw [h, ← hs]
  simp [join, Nat.shiftLeft_eq]

theorem toNat_high (v : UInt64) : (high v).toNat = v.toNat / 2 ^ 32 := by
  have hv := v.toNat_lt
  have hs : v.toNat / 2 ^ 32 % 2 ^ 32 = v.toNat / 2 ^ 32 := Nat.mod_eq_of_lt (by omega)
  rw [← hs]
  simp [high, Nat.shiftRight_eq_div_pow]

theorem toNat_low (v : UInt64) : (low v).toNat = v.toNat % 2 ^ 32 := by
  have h : (v &&& 0xffffffff).toNat = v.toNat % 2 ^ 32 := by
    rw [UInt64.toNat_and]
    exact Nat.and_two_pow_sub_one_eq_mod v.toNat 32
  rw [low, UInt64.toNat_toUInt32, h, Nat.mod_mod]

@[simp] theorem high_join (hi lo : UInt32) : high (join hi lo) = hi := by
  have h2 := lo.toNat_lt
  rw [← UInt32.toNat_inj, toNat_high, toNat_join]
  omega

@[simp] theorem low_join (hi lo : UInt32) : low (join hi lo) = lo := by
  have h2 := lo.toNat_lt
  rw [← UInt32.toNat_inj, toNat_low, toNat_join]
  omega

@[simp] theorem join_high_low (v : UInt64) : join (high v) (low v) = v := by
  have hv := v.toNat_lt
  rw [← UInt64.toNat_inj, toNat_join, toNat_high, toNat_low]
  omega

/-- On a little-endian host the converted value lies in memory as the big-endian bytes. -/
theorem mem64_hostToNetU64 (v : UInt64) :
    Endian.little.mem64 (hostToNetU64 .little v) = beBytes 8 v.toNat := by
  have hl : leBytes 4 (Endian.little.htonl (low v)).toNat = beBytes 4 v.toNat := by
    have h := Endian.mem32_htonl .little (low v)
    rw [toNat_low] at h
    rw [beBytes, ← leBytes_mod 4 v.toNat]
    exact h
  have hh : leBytes 4 (Endian.little.htonl (high v)).toNat = beBytes 4 (v.toNat / 2 ^ 32) := by
    have h := Endian.mem32_htonl .little (high v)
    rwa [toNat_high] at h
  have hlt := (Endian.little.htonl (high v)).toNat_lt
  rw [hostToNetU64, Endian.mem64, toNat_join, leBytes_add 4 4, ← leBytes_mod 4 (_ + _)]
  have hm (a b : Nat) (hb : b < 2 ^ 32) : (a * 2 ^ 32 + b) % 256 ^ 4 = b ∧ (a * 2 ^ 32 + b) / 256 ^ 4 = a := by
    omega
  obtain ⟨h1, h2⟩ := hm (Endian.little.htonl (low v)).toNat _ hlt
  rw [h1, h2, hl, hh]
  have hv : v.toNat / 256 ^ 4 = v.toNat / 2 ^ 32 := by omega
  rw [beBytes, beBytes, beBytes, leBytes_add 4 4, hv, List.reverse_append]

theorem netToHostU64_hostToNetU64 (v : UInt64) :
    netToHostU64 .little (hostToNetU64 .little v) = v := by
  have h (x : UInt32) : Endian.little.ntohl (Endian.little.htonl x) = x := by
    rw [Endian.ntohl, Endian.mem32_htonl]
    exact TlvHeader.ofNat_beVal x
  simp [netToHostU64, hostToNetU64, h]

/-! ## Packets -/

/-- `packet_t`; the payload is `NULL` (`none`) when there are no data. -/
@[ext] structure Packet where
  header : TlvHeader
  payload : Option Bytes
deriving DecidableEq, Repr

namespace Packet

/-- What `memset` leaves. -/
def zero : Packet := ⟨⟨0, 0, 0, 0, 0⟩, none⟩

/-- The payload bytes. -/
def data (p : Packet) : Bytes := p.payload.getD []

/-- The packet that `send_packet(type, status, data, |data|)` puts on the wire. -/
def of (type : CmdType) (status : StatusCode) (data : Bytes) : Packet :=
  ⟨.of type status (.ofNat data.length), if data = [] then none else some data⟩

/-- `(cmd_type_t)packet.header.cmd_type == type`. -/
def Is (p : Packet) (type : CmdType) : Prop := p.header.cmdType = type.code

instance (p : Packet) (type : CmdType) : Decidable (p.Is type) :=
  inferInstanceAs (Decidable (_ = _))

/-- A packet as `recv_packet` delivers it. -/
structure Valid (p : Packet) : Prop where
  header : p.header.Ok
  length : p.data.length = p.header.dataLen.toNat
  null : p.payload = none ↔ p.header.dataLen = 0

def wire (p : Packet) : Bytes := p.header.wire ++ p.data

/-- The bytes of a run of packets. -/
def wires (ps : List Packet) : Bytes := ps.flatMap wire

@[simp] theorem wires_nil : wires [] = [] := rfl
@[simp] theorem wires_cons (p : Packet) (ps : List Packet) : wires (p :: ps) = p.wire ++ wires ps := rfl
@[simp] theorem wires_append (ps qs : List Packet) : wires (ps ++ qs) = wires ps ++ wires qs :=
  List.flatMap_append

@[simp] theorem of_header (type : CmdType) (status : StatusCode) (data : Bytes) :
    (of type status data).header = .of type status (.ofNat data.length) := rfl

@[simp] theorem data_of (type : CmdType) (status : StatusCode) (data : Bytes) :
    (of type status data).data = data := by
  by_cases h : data = [] <;> simp [Packet.data, of, h]

@[simp] theorem of_is {type type' : CmdType} {status : StatusCode} {data : Bytes} :
    (of type status data).Is type' ↔ type = type' := by
  simp [Is, TlvHeader.of]

theorem wire_length (p : Packet) : p.wire.length = 20 + p.data.length := by simp [wire]

theorem wire_ne_nil (p : Packet) : p.wire ≠ [] :=
  List.ne_nil_of_length_pos (by rw [wire_length]; omega)

theorem toNat_len {data : Bytes} (h : data.length ≤ maxPacketPayload.toNat) :
    (UInt32.ofNat data.length).toNat = data.length := by
  have hm : maxPacketPayload.toNat = 65536 := rfl
  exact UInt32.toNat_ofNat_of_lt' (by show _ < 2 ^ 32; omega)

theorem of_valid (type : CmdType) (status : StatusCode) {data : Bytes}
    (h : data.length ≤ maxPacketPayload.toNat) : (of type status data).Valid where
  header := ⟨rfl, rfl, by rw [UInt32.le_iff_toNat_le]; simpa [TlvHeader.of, toNat_len h] using h⟩
  length := by simp [TlvHeader.of, toNat_len h]
  null := by
    have hz : UInt32.ofNat data.length = 0 ↔ data = [] := by
      rw [← UInt32.toNat_inj, toNat_len h]
      simp
    by_cases hd : data = [] <;> simp [of, TlvHeader.of, hz, hd]

theorem Valid.data_le {p : Packet} (h : p.Valid) : p.data.length ≤ maxPacketPayload.toNat := by
  rw [h.length]
  exact UInt32.le_iff_toNat_le.1 h.header.2.2

/-- Same header and same bytes, same packet. -/
theorem Valid.eq {p q : Packet} (hp : p.Valid) (hq : q.Valid) (hh : p.header = q.header)
    (hd : p.data = q.data) : p = q := by
  have hn := hp.null.trans (hh ▸ hq.null.symm)
  obtain ⟨h, a⟩ := p
  obtain ⟨h', b⟩ := q
  obtain rfl : h = h' := hh
  cases a <;> cases b <;> simp_all [Packet.data]

/-- **Valid packets are a prefix code**: a stream of them can be cut up in one way only. -/
theorem wire_code : PrefixCode wire Valid where
  ne_nil _ := wire_ne_nil _
  inj {a b x y} ha hb he := by
    simp only [wire, List.append_assoc] at he
    obtain ⟨hw, he⟩ := List.append_inj he (by simp)
    have hh := TlvHeader.wire_inj hw
    exact ha.eq hb hh (List.append_inj_left he (by rw [ha.length, hb.length, hh]))

/-- No packet starts another. -/
theorem Valid.eq_of_prefix {p q : Packet} (hp : p.Valid) (hq : q.Valid) (h : p.wire <+: q.wire) : p = q := by
  rw [← List.append_nil q.wire] at h
  exact wire_code.word_prefix hp hq h

end Packet

/-- The header at the front of a stream of packets. -/
theorem header_ok {ps : List Packet} {bs : Bytes} (hv : ∀ p ∈ ps, Packet.Valid p) (hl : bs.length = 20)
    (h : bs <+: Packet.wires ps) : (TlvHeader.ofWire bs).Ok := by
  cases ps with
  | nil => simp [List.prefix_nil.1 h] at hl
  | cons p ps =>
    rw [List.forall_mem_cons] at hv
    rw [Packet.wires_cons, Packet.wire, List.append_assoc] at h
    have hb : bs = p.header.wire := by
      have := List.prefix_of_prefix_length_le h (List.prefix_append p.header.wire _) (by simp [hl])
      exact this.eq_of_length (by simp [hl])
    rw [hb, TlvHeader.ofWire_wire]
    exact hv.1.header

/-! ## C strings -/

/-- The C string in a buffer. -/
def cstr (buf : Bytes) : Bytes := buf.takeWhile (· != 0)

def newline : UInt8 := 10

/-- What `snprintf(buf, size, "%s", s)` leaves in `buf`. -/
def truncate (size : Nat) (s : Bytes) : Bytes := s.take (size - 1)

@[simp] theorem cstr_append_zero {s t : Bytes} (h : 0 ∉ s) : cstr (s ++ 0 :: t) = s := by
  have hs : ∀ a ∈ s, (a != 0) = true := fun a ha => by simpa using fun h0 : a = 0 => h (h0 ▸ ha)
  rw [cstr, List.takeWhile_append_of_pos hs]
  simp

theorem truncate_eq {size : Nat} {s : Bytes} (h : s.length < size) : truncate size s = s :=
  List.take_of_length_le (by omega)

theorem zero_notMem_cstr (buf : Bytes) : 0 ∉ cstr buf := fun h => by
  simpa using List.all_eq_true.1 (List.all_takeWhile (p := fun b : UInt8 => b != 0)) 0 h

theorem cstr_eq_self {s : Bytes} (h : 0 ∉ s) : cstr s = s :=
  List.takeWhile_eq_self_iff.2 fun b hb => by simpa using fun h0 : b = 0 => h (h0 ▸ hb)

/-- Cutting a buffer cuts its string. -/
theorem cstr_take (n : Nat) (buf : Bytes) : cstr (buf.take n) = (cstr buf).take n := List.take_takeWhile.symm

/-- A string that ends inside its buffer is shorter than that. -/
theorem length_cstr_lt {buf : Bytes} (h : 0 ∈ buf) : (cstr buf).length < buf.length := by
  refine Nat.lt_of_le_of_ne (List.takeWhile_prefix _).length_le ?_
  intro hlen
  have hself : cstr buf = buf := (List.takeWhile_prefix _).eq_of_length hlen
  exact zero_notMem_cstr buf (hself.symm ▸ h)

/-- A buffer of `n` bytes at most has a string of less than `n`, unless it has `n` bytes and no NUL. -/
theorem take_cstr_eq_iff {buf : Bytes} {n : Nat} (hn : 0 < n) (h : buf.length ≤ n) :
    (cstr buf).take (n - 1) = cstr buf ↔ ¬ (buf.length = n ∧ 0 ∉ buf) := by
  rw [List.take_eq_self_iff]
  constructor
  · rintro hle ⟨hlen, h0⟩
    rw [cstr_eq_self h0] at hle
    omega
  · intro hne
    by_cases h0 : 0 ∈ buf
    · have := length_cstr_lt h0
      omega
    · rw [cstr_eq_self h0]
      have : buf.length ≠ n := fun hlen => hne ⟨hlen, h0⟩
      omega

theorem zero_notMem_truncate {size : Nat} {s : Bytes} (h : 0 ∉ s) : 0 ∉ truncate size s :=
  fun h' => h (List.mem_of_mem_take h')

/-! ## Payloads -/

/-- `sizeof(file_info_payload_t)`. -/
def fileInfoSize : Nat := pathMax + 8
/-- `sizeof(resume_payload_t)`. -/
def resumeSize : Nat := 8

/-- `net_to_host_u64` of the integer at the start of `bs`. -/
def loadU64 (bs : Bytes) : UInt64 := netToHostU64 host (host.load64 (bs.take 8))

/-- `resume_payload_t` with the offset converted (`handle.c:277`, `client_command_handle.c:421`). -/
def resumePayload (offset : UInt64) : Bytes := host.mem64 (hostToNetU64 host offset)

/-- `file_info_payload_t`, cleared and then filled (`handle.c:288`, `client_command_handle.c:200`). -/
def fileInfoPayload (fileName : Bytes) (fileSize : UInt64) : Bytes :=
  let name := truncate pathMax fileName
  name ++ List.replicate (pathMax - name.length) 0 ++ host.mem64 (hostToNetU64 host fileSize)

/-- `extract_file_info` (`handle.c:305`). -/
def extractFileInfo (packet : Packet) (fileNameSz : Nat) : Option (Bytes × UInt64) :=
  match packet.payload with
  | none => none
  | some payload =>
    if packet.header.dataLen ≠ .ofNat fileInfoSize then none
    else some (truncate fileNameSz (cstr payload), loadU64 (payload.drop pathMax))

/-- `extract_resume_offset` (`handle.c:329`). -/
def extractResumeOffset (packet : Packet) : Option UInt64 :=
  match packet.payload with
  | none => none
  | some payload => if packet.header.dataLen ≠ .ofNat resumeSize then none else some (loadU64 payload)

/-- `copy_string_payload` (`handle.c:61`): the string left in `buf`. -/
def copyStringPayload (packet : Packet) (bufSz : Nat) (allowEmpty : Bool) : Option Bytes :=
  if packet.header.dataLen = 0 then if allowEmpty then some [] else none
  else match packet.payload with
  | none => none
  | some payload =>
    if packet.header.dataLen.toNat > bufSz then none
    else
      let buf := cstr (payload.take (bufSz - 1))
      if buf = [] ∧ ¬ allowEmpty then none else some buf

/-- The receiver reads the string that the sender put in with its NUL. -/
theorem copyStringPayload_of (type : CmdType) {arg : Bytes} (h0 : 0 ∉ arg) (hne : arg ≠ []) (hshort : arg.length < pathMax) :
    copyStringPayload (.of type .ok (arg ++ [0])) pathMax false = some arg := by
  have hm : pathMax ≤ maxPacketPayload.toNat := by decide
  have hlen : (UInt32.ofNat (arg ++ [0]).length).toNat = arg.length + 1 := by
    rw [Packet.toNat_len (by rw [List.length_append, List.length_singleton]; omega), List.length_append,
      List.length_singleton]
  have hd : ¬ UInt32.ofNat (arg ++ [0]).length = 0 := fun h => by
    rw [h] at hlen
    exact absurd hlen.symm (Nat.succ_ne_zero _)
  have hcstr : cstr ((arg ++ [0]).take (pathMax - 1)) = arg := by
    rw [cstr_take, cstr_append_zero h0]
    exact truncate_eq hshort
  rw [copyStringPayload, Packet.of_header, TlvHeader.of, if_neg hd]
  simp only [Packet.of, if_neg (List.append_ne_nil_of_right_ne_nil arg (List.cons_ne_nil _ _)), TlvHeader.of, hlen, hcstr]
  rw [if_neg (by omega), if_neg (by simp [hne])]

@[simp] theorem length_resumePayload (offset : UInt64) : (resumePayload offset).length = resumeSize := by
  simp [resumePayload, resumeSize]

/-- The name fills its field. -/
theorem length_fileNameField (fileName : Bytes) : (truncate pathMax fileName ++
    List.replicate (pathMax - (truncate pathMax fileName).length) (0 : UInt8)).length = pathMax := by
  have h : (truncate pathMax fileName).length ≤ pathMax := by
    simp only [truncate, List.length_take, pathMax]
    omega
  rw [List.length_append, List.length_replicate]
  omega

@[simp] theorem length_fileInfoPayload (fileName : Bytes) (fileSize : UInt64) :
    (fileInfoPayload fileName fileSize).length = fileInfoSize := by
  rw [fileInfoPayload, List.length_append, length_fileNameField, Endian.length_mem64, fileInfoSize]

theorem loadU64_mem64 (v : UInt64) (rest : Bytes) :
    loadU64 (host.mem64 (hostToNetU64 host v) ++ rest) = v := by
  rw [loadU64, List.take_append_of_le_length (by simp), List.take_of_length_le (by simp),
    Endian.load64_mem64]
  exact netToHostU64_hostToNetU64 v

@[simp] theorem loadU64_resumePayload (offset : UInt64) : loadU64 (resumePayload offset) = offset := by
  simpa [resumePayload] using loadU64_mem64 offset []

/-- The packet a resume offset travels in. -/
def resumePacket (type : CmdType) (offset : UInt64) : Packet := .of type .ok (resumePayload offset)

/-- The packet a file's name and size travel in. -/
def fileInfoPacket (type : CmdType) (fileName : Bytes) (fileSize : UInt64) : Packet :=
  .of type .ok (fileInfoPayload fileName fileSize)

theorem resumePacket_valid (type : CmdType) (offset : UInt64) : (resumePacket type offset).Valid :=
  Packet.of_valid _ _ (by rw [length_resumePayload]; decide)

theorem fileInfoPacket_valid (type : CmdType) (fileName : Bytes) (fileSize : UInt64) :
    (fileInfoPacket type fileName fileSize).Valid :=
  Packet.of_valid _ _ (by rw [length_fileInfoPayload]; decide)

private theorem ne_nil_of_len {bs : Bytes} {n : Nat} (h : bs.length = n + 1) : bs ≠ [] :=
  List.ne_nil_of_length_pos (by omega)

theorem resumePacket_payload (type : CmdType) (offset : UInt64) :
    (resumePacket type offset).payload = some (resumePayload offset) := by
  simp [resumePacket, Packet.of, ne_nil_of_len (length_resumePayload offset)]

theorem fileInfoPacket_payload (type : CmdType) (fileName : Bytes) (fileSize : UInt64) :
    (fileInfoPacket type fileName fileSize).payload = some (fileInfoPayload fileName fileSize) := by
  simp [fileInfoPacket, Packet.of, ne_nil_of_len (length_fileInfoPayload fileName fileSize)]

theorem resumePacket_dataLen (type : CmdType) (offset : UInt64) :
    (resumePacket type offset).header.dataLen = .ofNat resumeSize := by
  simp [resumePacket, TlvHeader.of]

theorem fileInfoPacket_dataLen (type : CmdType) (fileName : Bytes) (fileSize : UInt64) :
    (fileInfoPacket type fileName fileSize).header.dataLen = .ofNat fileInfoSize := by
  simp [fileInfoPacket, TlvHeader.of]

/-- The receiver reads the offset that the sender put in. -/
@[simp] theorem extractResumeOffset_resumePacket (type : CmdType) (offset : UInt64) :
    extractResumeOffset (resumePacket type offset) = some offset := by
  simp [extractResumeOffset, resumePacket_payload, resumePacket_dataLen]

theorem loadU64_fileInfoPayload (fileName : Bytes) (fileSize : UInt64) :
    loadU64 ((fileInfoPayload fileName fileSize).drop pathMax) = fileSize := by
  have hlen := length_fileNameField fileName
  rw [fileInfoPayload, List.drop_append_of_le_length (by omega), List.drop_eq_nil_of_le (by omega)]
  simpa using loadU64_mem64 fileSize []

/-- The receiver reads the name and the size that the sender put in. -/
theorem extractFileInfo_fileInfoPacket (type : CmdType) {fileName : Bytes} (fileSize : UInt64)
    (h0 : 0 ∉ fileName) (hlen : fileName.length < pathMax) :
    extractFileInfo (fileInfoPacket type fileName fileSize) pathMax = some (fileName, fileSize) := by
  obtain ⟨n, hn⟩ : ∃ n, pathMax - fileName.length = n + 1 := ⟨pathMax - fileName.length - 1, by omega⟩
  have hname : cstr (fileInfoPayload fileName fileSize) = fileName := by
    rw [fileInfoPayload, truncate_eq hlen, hn, List.replicate_succ, List.append_assoc, List.cons_append]
    exact cstr_append_zero h0
  rw [extractFileInfo, fileInfoPacket_payload]
  simp only [fileInfoPacket_dataLen, ne_eq, not_true_eq_false, if_false, hname, truncate_eq hlen,
    loadU64_fileInfoPayload]

/-! ## Blocks of a file -/

def dataPacket (block : Bytes) : Packet := .of .fileData .ok block

def dataPackets (blocks : List Bytes) : List Packet := blocks.map dataPacket

def endPacket : Packet := .of .fileEnd .ok []

/-- The payloads of a run of packets. -/
def payloads (pkts : List Packet) : Bytes := pkts.flatMap Packet.data

@[simp] theorem payloads_nil : payloads [] = [] := rfl
@[simp] theorem payloads_append (ps qs : List Packet) : payloads (ps ++ qs) = payloads ps ++ payloads qs :=
  List.flatMap_append
@[simp] theorem payloads_cons (p : Packet) (ps : List Packet) : payloads (p :: ps) = p.data ++ payloads ps := rfl

@[simp] theorem dataPackets_append (bs cs : List Bytes) : dataPackets (bs ++ cs) = dataPackets bs ++ dataPackets cs :=
  List.map_append

@[simp] theorem payloads_dataPackets (blocks : List Bytes) : payloads (dataPackets blocks) = blocks.flatten := by
  induction blocks with
  | nil => rfl
  | cons b bs ih =>
    rw [dataPackets, List.map_cons, payloads_cons, dataPacket, Packet.data_of]
    exact congrArg (b ++ ·) ih

theorem wires_blocks_snoc (blocks : List Bytes) (block : Bytes) : Packet.wires (dataPackets (blocks ++ [block])) =
    Packet.wires (dataPackets blocks) ++ (Packet.of .fileData .ok block).wire := by
  simp [dataPackets, dataPacket]

/-- A size that an `off_t` holds keeps its value in 64 bits. -/
theorem toNat_size {size : Nat} (h : size < 2 ^ 63) : (UInt64.ofNat size).toNat = size :=
  UInt64.toNat_ofNat_of_lt' (by show _ < 2 ^ 64; omega)

/-- An offset that an `off_t` holds moves on by a block without wrapping. -/
theorem toNat_add_block {off : UInt64} {block : Bytes} (hoff : off.toNat < 2 ^ 63) (h : block.length ≤ fileBlockSize) :
    (off + .ofNat block.length).toNat = off.toNat + block.length := by
  have hblock : fileBlockSize = 4096 := rfl
  rw [UInt64.toNat_add, toNat_size (by omega), Nat.mod_eq_of_lt (by omega)]

theorem dataPacket_valid {block : Bytes} (h : block.length ≤ fileBlockSize) : (dataPacket block).Valid :=
  Packet.of_valid _ _ (h.trans (by decide))

@[simp] theorem dataPacket_is {block : Bytes} {type : CmdType} : (dataPacket block).Is type ↔ .fileData = type :=
  Packet.of_is

theorem endPacket_valid : endPacket.Valid := Packet.of_valid _ _ (by decide)

@[simp] theorem endPacket_is {type : CmdType} : endPacket.Is type ↔ .fileEnd = type := Packet.of_is

/-! ## The command line -/

/-- `command_request_t`. -/
structure CommandRequest where
  type : CmdType
  arg : Bytes
deriving DecidableEq, Repr

/-- `parse_command_type` (`protocol.c:60`). -/
def parseCommandType (cmd : Bytes) : CmdType :=
  if cmd = [] then .invalid
  else if cmd = lit "pwd" then .pwd
  else if cmd = lit "cd" then .cd
  else if cmd = lit "ls" then .ls
  else if cmd = lit "rm" ∨ cmd = lit "remove" then .rm
  else if cmd = lit "mkdir" then .mkdir
  else if cmd = lit "puts" then .putsReq
  else if cmd = lit "gets" then .getsReq
  else .invalid

/-- `isspace` in the C locale. -/
def isSpace (b : UInt8) : Bool := b == 32 || (9 ≤ b && b ≤ 13)

/-- `sscanf(input, "%63s %4095[^\n]", cmd, arg)`; `none` when not even `cmd` is read. -/
def scanCommand (input : Bytes) : Option (Bytes × Bytes) :=
  let s := input.dropWhile isSpace
  let cmd := (s.takeWhile (! isSpace ·)).take 63
  if cmd = [] then none
  else
    let rest := (s.drop cmd.length).dropWhile isSpace
    some (cmd, (rest.takeWhile (· != 10)).take 4095)

/-- `parse_command_request` (`protocol.c:150`), with `fill_request`. -/
def parseCommandRequest (input : Bytes) : Option CommandRequest :=
  match scanCommand input with
  | none => none
  | some (cmd, arg) =>
    match parseCommandType cmd with
    | .invalid => none
    | type => some ⟨type, truncate pathMax arg⟩

/-- `build_command_request` (`protocol.c:185`). -/
def buildCommandRequest (input : Bytes) : Option CommandRequest := parseCommandRequest input

example : buildCommandRequest (lit "  puts  a b.txt") = some ⟨.putsReq, lit "a b.txt"⟩ := by decide

end WindCloud
