import WindCloud.Protocol
/-!
# The 64-bit fields between two hosts

`host_to_net_u64` converts the two halves of its argument and exchanges them, whatever the host (`protocol.c:200`).
On a little-endian host that reverses all eight bytes. On a big-endian host `htonl` changes nothing, so the two
halves go out in the wrong order, and `net_to_host_u64` exchanges them again. The 32-bit fields of a header survive
any pair of hosts (`arrive_eq`), a 64-bit field does so only between two little-endian ones (`survives_iff`).

| here | there |
| --- | --- |
| `resumePayloadOn`, `fileInfoPayloadOn`           | `handle.c:277-299`, `client_command_handle.c:200-207`, `:421`, on a host of either byte order |
| `extractFileInfoOn`, `extractResumeOffsetOn`     | `handle.c:305`, `:329`, likewise |
| `Packet.arrive`                                  | a header through `send_packet` on one host and `recv_packet` on the other |
-/

namespace WindCloud

open ByteOrder

def loadU64On (e : Endian) (bs : Bytes) : UInt64 := netToHostU64 e (e.load64 (bs.take 8))

def resumePayloadOn (e : Endian) (offset : UInt64) : Bytes := e.mem64 (hostToNetU64 e offset)

def fileInfoPayloadOn (e : Endian) (fileName : Bytes) (fileSize : UInt64) : Bytes :=
  let name := truncate pathMax fileName
  name ++ List.replicate (pathMax - name.length) 0 ++ e.mem64 (hostToNetU64 e fileSize)

def extractFileInfoOn (e : Endian) (packet : Packet) (fileNameSz : Nat) : Option (Bytes × UInt64) :=
  match packet.payload with
  | none => none
  | some payload =>
    if packet.header.dataLen ≠ .ofNat fileInfoSize then none
    else some (truncate fileNameSz (cstr payload), loadU64On e (payload.drop pathMax))

def extractResumeOffsetOn (e : Endian) (packet : Packet) : Option UInt64 :=
  match packet.payload with
  | none => none
  | some payload => if packet.header.dataLen ≠ .ofNat resumeSize then none else some (loadU64On e payload)

/-- What `recv_packet` on the host `r` makes of what `send_packet` on the host `s` has written. -/
def Packet.arrive (s r : Endian) (p : Packet) : Packet :=
  ⟨(TlvHeader.load r ((p.header.hton s).bytes s)).ntoh r, p.payload⟩

/-- The two halves of `v`, exchanged. -/
def exchange (v : UInt64) : UInt64 := join (low v) (high v)

/-- What the wire says when the host `e` converts `v`. -/
def onWire : Endian → UInt64 → UInt64
  | .little, v => v
  | .big, v => exchange v

/-- A 64-bit field that the host `s` sends to the host `r` is big-endian on the way, and arrives as it was. -/
structure Survives (s r : Endian) (v : UInt64) : Prop where
  bytes : s.mem64 (hostToNetU64 s v) = beBytes 8 v.toNat
  value : netToHostU64 r (r.load64 (s.mem64 (hostToNetU64 s v))) = v
  fileSize : ∀ type fileName fileNameSz, (extractFileInfoOn r
    ((Packet.of type .ok (fileInfoPayloadOn s fileName v)).arrive s r) fileNameSz).map Prod.snd = some v
  offset : ∀ type, extractResumeOffsetOn r ((Packet.of type .ok (resumePayloadOn s v)).arrive s r) = some v

section

variable {e s r : Endian} {v : UInt64}

/-! ## The functions of both programs -/

theorem resumePayloadOn_host (offset : UInt64) : resumePayloadOn host offset = resumePayload offset := rfl

theorem fileInfoPayloadOn_host (fileName : Bytes) (fileSize : UInt64) :
    fileInfoPayloadOn host fileName fileSize = fileInfoPayload fileName fileSize := rfl

theorem extractFileInfoOn_host (packet : Packet) (fileNameSz : Nat) :
    extractFileInfoOn host packet fileNameSz = extractFileInfo packet fileNameSz := rfl

theorem extractResumeOffsetOn_host (packet : Packet) :
    extractResumeOffsetOn host packet = extractResumeOffset packet := rfl

/-- The header arrives as it was. -/
@[simp] theorem Packet.arrive_eq (s r : Endian) (p : Packet) : p.arrive s r = p := by
  rw [arrive, TlvHeader.bytes_hton, TlvHeader.ntoh_load r (TlvHeader.length_wire _), TlvHeader.ofWire_wire]

/-! ## Halves -/

@[simp] theorem exchange_exchange (v : UInt64) : exchange (exchange v) = v := by simp [exchange]

theorem exchange_eq_iff : exchange v = v ↔ high v = low v := by
  constructor
  · intro h
    rw [← high_join (low v) (high v), ← exchange, h]
  · intro h
    exact (congrArg₂ join h.symm h).trans (join_high_low v)

theorem onWire_onWire_iff : onWire r (onWire s v) = v ↔ s = r ∨ high v = low v := by
  cases s <;> cases r <;> simp [onWire, exchange_eq_iff]

/-! ## Bytes -/

theorem htonl_big (x : UInt32) : Endian.big.htonl x = x := by
  have hx := x.toNat_lt
  rw [Endian.htonl, Endian.load32, beVal_beBytes, Nat.mod_eq_of_lt (by omega), UInt32.ofNat_toNat]

theorem mem64_hostToNetU64_on (e : Endian) (v : UInt64) :
    e.mem64 (hostToNetU64 e v) = beBytes 8 (onWire e v).toNat := by
  cases e with
  | little => exact mem64_hostToNetU64 v
  | big =>
    rw [hostToNetU64, htonl_big, htonl_big]
    rfl

/-- A host reads what it would itself have sent. -/
theorem netToHostU64_beBytes (e : Endian) (v : UInt64) : netToHostU64 e (e.load64 (beBytes 8 v.toNat)) = onWire e v := by
  cases e with
  | little =>
    rw [← mem64_hostToNetU64, Endian.load64_mem64]
    exact netToHostU64_hostToNetU64 v
  | big =>
    have hload : Endian.big.load64 (beBytes 8 v.toNat) = v := Endian.load64_mem64 .big v
    have hntohl (x : UInt32) : Endian.big.ntohl x = x := by
      have hx := x.toNat_lt
      rw [Endian.ntohl, Endian.mem32, beVal_beBytes, Nat.mod_eq_of_lt (by omega), UInt32.ofNat_toNat]
    rw [hload, netToHostU64, hntohl, hntohl]
    rfl

theorem value_eq (s r : Endian) (v : UInt64) :
    netToHostU64 r (r.load64 (s.mem64 (hostToNetU64 s v))) = onWire r (onWire s v) := by
  rw [mem64_hostToNetU64_on, netToHostU64_beBytes]

/-- The value arrives between hosts of one byte order. -/
theorem value_iff : netToHostU64 r (r.load64 (s.mem64 (hostToNetU64 s v))) = v ↔ s = r ∨ high v = low v := by
  rw [value_eq, onWire_onWire_iff]

theorem bytes_iff : s.mem64 (hostToNetU64 s v) = beBytes 8 v.toNat ↔ s = .little ∨ high v = low v := by
  rw [mem64_hostToNetU64_on]
  constructor
  · intro h
    have hval := congrArg beVal h
    rw [beVal_beBytes, beVal_beBytes, Nat.mod_eq_of_lt (by have := (onWire s v).toNat_lt; omega),
      Nat.mod_eq_of_lt (by have := v.toNat_lt; omega), UInt64.toNat_inj] at hval
    cases s with
    | little => exact .inl rfl
    | big => exact .inr (exchange_eq_iff.1 hval)
  · rintro (rfl | h)
    · rfl
    · cases s with
      | little => rfl
      | big => rw [onWire, exchange_eq_iff.2 h]

/-! ## Fields -/

theorem loadU64On_mem64 (s r : Endian) (v : UInt64) (rest : Bytes) :
    loadU64On r (s.mem64 (hostToNetU64 s v) ++ rest) = onWire r (onWire s v) := by
  rw [loadU64On, List.take_append_of_le_length (by simp), List.take_of_length_le (by simp), value_eq]

theorem extractResumeOffsetOn_of (type : CmdType) (s r : Endian) (v : UInt64) :
    extractResumeOffsetOn r (.of type .ok (resumePayloadOn s v)) = some (onWire r (onWire s v)) := by
  have hlen : (resumePayloadOn s v).length = resumeSize := by simp [resumePayloadOn, resumeSize]
  have hne : resumePayloadOn s v ≠ [] := List.ne_nil_of_length_pos (by rw [hlen]; decide)
  have hload : loadU64On r (resumePayloadOn s v) = onWire r (onWire s v) := by
    rw [← loadU64On_mem64 s r v [], List.append_nil, resumePayloadOn]
  simp only [extractResumeOffsetOn, Packet.of, if_neg hne, TlvHeader.of, hlen, ne_eq, not_true_eq_false, if_false, hload]

theorem extractFileInfoOn_of (type : CmdType) (s r : Endian) (fileName : Bytes) (fileNameSz : Nat) (v : UInt64) :
    (extractFileInfoOn r (.of type .ok (fileInfoPayloadOn s fileName v)) fileNameSz).map Prod.snd =
      some (onWire r (onWire s v)) := by
  have hname := length_fileNameField fileName
  have hlen : (fileInfoPayloadOn s fileName v).length = fileInfoSize := by
    rw [fileInfoPayloadOn, List.length_append, hname, Endian.length_mem64, fileInfoSize]
  have hne : fileInfoPayloadOn s fileName v ≠ [] := List.ne_nil_of_length_pos (by rw [hlen]; decide)
  have hdrop : (fileInfoPayloadOn s fileName v).drop pathMax = s.mem64 (hostToNetU64 s v) := by
    rw [fileInfoPayloadOn, List.drop_append_of_le_length (by omega), List.drop_eq_nil_of_le (by omega), List.nil_append]
  have hload := loadU64On_mem64 s r v []
  rw [List.append_nil] at hload
  simp only [extractFileInfoOn, Packet.of, if_neg hne, TlvHeader.of, hlen, ne_eq, not_true_eq_false, if_false, hdrop, hload,
    Option.map_some]

/-- **A 64-bit field survives exactly between two little-endian hosts**, unless its halves are equal. -/
theorem survives_iff (s r : Endian) (v : UInt64) :
    Survives s r v ↔ (s = .little ∧ r = .little) ∨ high v = low v := by
  constructor
  · intro h
    rcases bytes_iff.1 h.bytes with rfl | hv
    · rcases value_iff.1 h.value with rfl | hv
      · exact .inl ⟨rfl, rfl⟩
      · exact .inr hv
    · exact .inr hv
  · intro h
    have hs : s = .little ∨ high v = low v := h.imp_left And.left
    have hr : s = r ∨ high v = low v := h.imp_left fun h => h.1.trans h.2.symm
    have hwire := onWire_onWire_iff.2 hr
    exact
      { bytes := bytes_iff.2 hs
        value := value_iff.2 hr
        fileSize := fun type fileName fileNameSz => by rw [Packet.arrive_eq, extractFileInfoOn_of, hwire]
        offset := fun type => by rw [Packet.arrive_eq, extractResumeOffsetOn_of, hwire] }

/-- A big-endian client asks a little-endian server to resume at 1, and the server resumes at 2³². -/
theorem survives_not_big : ¬ Survives .big .little 1 ∧
    extractResumeOffsetOn .little ((Packet.of .resumePos .ok (resumePayloadOn .big 1)).arrive .big .little) =
      some 4294967296 := by
  refine ⟨?_, by rw [Packet.arrive_eq, extractResumeOffsetOn_of]; decide⟩
  intro h
  have hvalue := h.value
  rw [value_eq] at hvalue
  exact absurd hvalue (by decide)

end
end WindCloud
