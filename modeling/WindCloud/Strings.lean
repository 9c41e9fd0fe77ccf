import WindCloud.Server
/-!
# Strings in a payload

A peer chooses every byte of a payload, so a string in it may have no terminating NUL. `copy_string_payload`
accepts 4096 bytes and then puts a NUL over the last one (`handle.c:73`, `:83`), and `extract_file_info` gives
`snprintf` 4096 bytes to put a name in that may have as many (`handle.c:315`): both shorten a name of 4096
bytes without a NUL instead of refusing it. The `"%s"` of `extract_file_info` and of `print_text_from_packet`
goes on to the first NUL, which `recv_packet` does not put behind the payload (`protocol.c:430`).

| here | there |
| --- | --- |
| `takenName`           | the name that `dispatch_command` hands to a handler (`handle.c:869-894`), or `handle_puts` takes (`:581`) |
| `scan`                | `"%s"`, on memory that ends with the payload |
| `scanFileInfo`        | `extract_file_info` (`handle.c:305`) with that scan |
| `printTextFromPacket` | `print_text_from_packet` (`client_command_handle.c:79`) |
-/

namespace WindCloud

open Interaction

namespace Server

/-! ## Names -/

/-- The commands with a string argument. -/
def TakesArg (packet : Packet) : Prop :=
  packet.Is .cd ∨ packet.Is .rm ∨ packet.Is .mkdir ∨ packet.Is .getsReq

instance (packet : Packet) : Decidable (TakesArg packet) := inferInstanceAs (Decidable (_ ∨ _))

/-- The name that the server takes from a packet; `none` when it refuses it or the command has no name. -/
def takenName (packet : Packet) : Option Bytes :=
  if packet.Is .putsReq then (extractFileInfo packet pathMax).map Prod.fst
  else if TakesArg packet then copyStringPayload packet pathMax false
  else none

/-- Where the name is: in the whole payload, or in `file_name`. -/
def nameField (packet : Packet) : Bytes :=
  if packet.Is .putsReq then packet.data.take pathMax else packet.data

/-- A name that is taken is the one that was sent: the bytes up to the first NUL, or all of them. -/
def TakenWhole (packet : Packet) : Prop :=
  ∀ name, takenName packet = some name → name = cstr (nameField packet)

/-- The name fills its field and has no NUL. -/
def Unterminated (packet : Packet) : Prop :=
  (packet.Is .putsReq ∧ packet.data.length = fileInfoSize ∨ TakesArg packet ∧ packet.data.length = pathMax) ∧
    0 ∉ nameField packet

instance (packet : Packet) : Decidable (Unterminated packet) := inferInstanceAs (Decidable (_ ∧ _))

variable {packet : Packet} {name : Bytes} {session : Session}

theorem takesArg_not_puts (h : TakesArg packet) : ¬ packet.Is .putsReq := by
  intro hputs
  rcases h with h | h | h | h
  all_goals
    have hcode := CmdType.code_inj.1 (h.symm.trans hputs)
    cases hcode

/-- Commands of one type that the server takes the same name from, and the same size, are one command to it. -/
theorem dispatchCommand_congr {other : Packet} (htype : packet.header.cmdType = other.header.cmdType)
    (hname : TakesArg packet → takenName packet = takenName other)
    (hinfo : packet.Is .putsReq → extractFileInfo packet pathMax = extractFileInfo other pathMax) :
    dispatchCommand session packet = dispatchCommand session other := by
  have harg (h : TakesArg packet) : copyStringPayload packet pathMax false = copyStringPayload other pathMax false := by
    have h' : TakesArg other := by simpa only [TakesArg, Packet.Is, htype] using h
    have heq := hname h
    rwa [takenName, takenName, if_neg (takesArg_not_puts h), if_neg (takesArg_not_puts h'), if_pos h, if_pos h'] at heq
  unfold dispatchCommand
  rw [← htype]
  rcases htype' : CmdType.ofCode packet.header.cmdType with _ | type
  · rfl
  have his : packet.Is type := CmdType.ofCode_eq htype'
  cases type
  case cd => simp only [withArg, harg (.inl his)]
  case rm => simp only [withArg, harg (.inr (.inl his))]
  case mkdir => simp only [withArg, harg (.inr (.inr (.inl his)))]
  case getsReq => simp only [withArg, harg (.inr (.inr (.inr his)))]
  case putsReq => simp only [handlePuts, hinfo his]
  all_goals rfl

end Server

/-! ## The decoders on a received packet -/

section Decoders

variable {packet : Packet}

theorem Packet.payload_eq (h : packet.data ≠ []) : packet.payload = some packet.data := by
  rcases hpay : packet.payload with _ | data
  · exact absurd (by rw [Packet.data, hpay]; rfl) h
  · rw [Packet.data, hpay]
    rfl

theorem Packet.Valid.dataLen_eq_zero (hp : packet.Valid) : packet.header.dataLen = 0 ↔ packet.data = [] := by
  rw [← List.length_eq_zero_iff, hp.length, ← UInt32.toNat_inj]
  rfl

theorem Packet.Valid.payload_eq_none (hp : packet.Valid) (h : packet.data = []) : packet.payload = none :=
  hp.null.2 (hp.dataLen_eq_zero.2 h)

theorem Packet.Valid.dataLen_eq_fileInfo (hp : packet.Valid) :
    packet.header.dataLen = .ofNat fileInfoSize ↔ packet.data.length = fileInfoSize := by
  rw [hp.length, ← UInt32.toNat_inj]
  rfl

theorem copyStringPayload_of_valid (hp : packet.Valid) {bufSz : Nat} : copyStringPayload packet bufSz false =
    if packet.data.length ≤ bufSz ∧ (cstr packet.data).take (bufSz - 1) ≠ [] then
      some ((cstr packet.data).take (bufSz - 1)) else none := by
  unfold copyStringPayload
  by_cases hd : packet.data = []
  · rw [if_pos (hp.dataLen_eq_zero.2 hd), if_neg (by simp), hd, if_neg (by simp [cstr])]
  · simp only [if_neg (fun h => hd (hp.dataLen_eq_zero.1 h)), Packet.payload_eq hd, ← hp.length, cstr_take]
    by_cases hlen : packet.data.length ≤ bufSz
    · rw [if_neg (Nat.not_lt.2 hlen)]
      by_cases hempty : (cstr packet.data).take (bufSz - 1) = []
      · rw [if_pos ⟨hempty, by simp⟩, if_neg fun h => h.2 hempty]
      · rw [if_neg fun h => hempty h.1, if_pos ⟨hlen, hempty⟩]
    · rw [if_pos (Nat.lt_of_not_le hlen), if_neg fun h => hlen h.1]

theorem extractFileInfo_of_valid (hp : packet.Valid) {fileNameSz : Nat} : extractFileInfo packet fileNameSz =
    if packet.data.length = fileInfoSize then
      some (truncate fileNameSz (cstr packet.data), loadU64 (packet.data.drop pathMax)) else none := by
  have hlen := hp.dataLen_eq_fileInfo
  unfold extractFileInfo
  by_cases hd : packet.data = []
  · simp [hp.payload_eq_none hd, hd, fileInfoSize, pathMax]
  · simp only [Packet.payload_eq hd, ne_eq, hlen, ite_not]

end Decoders

/-! ## Taken whole or refused -/

namespace Server

variable {packet : Packet} {name : Bytes}

/-- What is taken is what fits of the string in its field, with room for a NUL. -/
theorem takenName_of_valid (hp : packet.Valid) : takenName packet =
    if packet.Is .putsReq ∧ packet.data.length = fileInfoSize ∨ TakesArg packet ∧ packet.data.length ≤ pathMax ∧
        (cstr (nameField packet)).take (pathMax - 1) ≠ [] then
      some ((cstr (nameField packet)).take (pathMax - 1)) else none := by
  unfold takenName nameField
  by_cases hputs : packet.Is .putsReq
  · have hnot : ¬ TakesArg packet := fun h => takesArg_not_puts h hputs
    have hcut : truncate pathMax (cstr packet.data) = (cstr (packet.data.take pathMax)).take (pathMax - 1) := by
      rw [cstr_take, List.take_take]
      rfl
    simp only [hputs, hnot, if_true, true_and, false_and, or_false, extractFileInfo_of_valid hp, hcut]
    split <;> rfl
  · simp only [hputs, if_false, false_and, false_or, copyStringPayload_of_valid hp]
    by_cases harg : TakesArg packet
    · simp only [harg, if_true, true_and]
    · simp only [harg, if_false, false_and]

/-- The field of a name is never longer than the buffer. -/
theorem length_nameField_le (h : packet.Is .putsReq ∨ packet.data.length ≤ pathMax) :
    (nameField packet).length ≤ pathMax := by
  unfold nameField
  split
  · rw [List.length_take]
    exact min_le_left ..
  · rename_i hputs
    exact h.resolve_left hputs

theorem Unterminated.length (h : Unterminated packet) : (nameField packet).length = pathMax := by
  unfold nameField
  rcases h.1 with ⟨hputs, hlen⟩ | ⟨harg, hlen⟩
  · rw [if_pos hputs, List.length_take, hlen]
    rfl
  · rw [if_neg (takesArg_not_puts harg), hlen]

/-- **A name is taken whole or refused, except one of 4096 bytes without a NUL.** That one is taken, and loses its
last byte. -/
theorem takenWhole_iff (hp : packet.Valid) : TakenWhole packet ↔ ¬ Unterminated packet := by
  have hpos : 0 < pathMax := by decide
  have htaken := takenName_of_valid hp
  constructor
  · intro hwhole h
    have hlen := h.length
    have hne : (cstr (nameField packet)).take (pathMax - 1) ≠ [] := by
      rw [cstr_eq_self h.2]
      apply List.ne_nil_of_length_pos
      rw [List.length_take, hlen]
      decide
    rw [if_pos (h.1.imp_right fun harg => ⟨harg.1, harg.2.le, hne⟩)] at htaken
    exact (take_cstr_eq_iff hpos hlen.le).1 (hwhole _ htaken) ⟨hlen, h.2⟩
  · intro hterm name hname
    rw [htaken, Option.ite_none_right_eq_some] at hname
    obtain ⟨hkind, hname⟩ := hname
    cases hname
    have hle : (nameField packet).length ≤ pathMax := length_nameField_le (hkind.imp And.left fun h => h.2.1)
    refine (take_cstr_eq_iff hpos hle).2 fun ⟨hlen, h0⟩ => hterm ⟨hkind.imp_right fun h => ⟨h.1, ?_⟩, h0⟩
    rwa [nameField, if_neg (takesArg_not_puts h.1)] at hlen

theorem takenWhole_text : (textPacket .rm .ok (lit "a")).Valid ∧ TakenWhole (textPacket .rm .ok (lit "a")) := by
  have hv : (textPacket .rm .ok (lit "a")).Valid := textPacket_valid (by decide)
  exact ⟨hv, (takenWhole_iff hv).2 (by decide)⟩

/-! ### The file `ab`, which becomes the file `a` -/

/-- `./////..`, with `n` slashes. -/
def slashes (n : Nat) : Bytes := dot ++ List.replicate n slash

theorem length_slashes (n : Nat) : (slashes n).length = n + 1 := by
  rw [slashes, List.length_append, List.length_replicate, Nat.add_comm]
  rfl

/-- All slashes together separate as one does. -/
theorem tokens_slashes (n : Nat) {t : Bytes} (hne : t ≠ []) (hs : slash ∉ t) :
    tokens (slashes (n + 1) ++ t) = [dot, t] := by
  have hskip : tokens (List.replicate n slash ++ t) = [t] := by
    induction n with
    | zero => simp [tokens, pieces_of_notMem hs, hne]
    | succ n ih =>
      rw [List.replicate_succ, List.cons_append]
      exact ih
  rw [slashes, List.append_assoc, List.replicate_succ, List.cons_append, tokens, pieces_append_slash, List.filter_append]
  exact congrArg (dot :: ·) hskip

theorem resolveTargetPath_slashes {n : Nat} (hn : n + 3 < pathMax) :
    resolveTargetPath rootPath (slashes (n + 1) ++ lit "a") pathMax pathMax = some (lit "/a", lit "../tests/a") := by
  have hlen : (slashes (n + 1) ++ lit "a").length = n + 3 := by
    rw [List.length_append, length_slashes]
    rfl
  have htokens : tokens (slashes (n + 1) ++ lit "a") = [dot, lit "a"] := tokens_slashes n (by decide) (by decide)
  have hne : slashes (n + 1) ++ lit "a" ≠ [] := List.ne_nil_of_length_pos (by omega)
  have hhead : (slashes (n + 1) ++ lit "a").head? ≠ some slash := by
    show some (46 : UInt8) ≠ some slash
    decide
  have hnorm : normalizeVirtualPath rootPath (slashes (n + 1) ++ lit "a") pathMax = some (lit "/a") := by
    simp only [normalizeVirtualPath, if_neg hne, if_neg hhead, if_true, hlen, if_neg (Nat.not_le.2 hn),
      truncate_eq (hlen.trans_lt hn), htokens]
    decide
  rw [resolveTargetPath, hnorm]
  decide

/-- A request to remove `ab`, written with 4096 bytes. -/
def removeAb : Packet := .of .rm .ok (slashes 4093 ++ lit "ab")

/-- It removes `a`. -/
theorem removeAb_shortened : removeAb.Valid ∧ ¬ TakenWhole removeAb ∧ ∃ name, takenName removeAb = some name ∧
    resolveTargetPath rootPath name pathMax pathMax = some (lit "/a", lit "../tests/a") := by
  have hlen : (slashes 4093 ++ lit "ab").length = pathMax := by
    rw [List.length_append, length_slashes]
    rfl
  have hvalid : removeAb.Valid := Packet.of_valid _ _ (by rw [hlen]; decide)
  have hdata : removeAb.data = slashes 4093 ++ lit "ab" := Packet.data_of ..
  have harg : TakesArg removeAb := .inr (.inl (Packet.of_is.2 rfl))
  have hputs : ¬ removeAb.Is .putsReq := takesArg_not_puts harg
  have hfield : nameField removeAb = slashes 4093 ++ lit "ab" := (if_neg hputs).trans hdata
  have h0 : 0 ∉ nameField removeAb := by
    rw [hfield, slashes, List.mem_append, List.mem_append, List.mem_replicate]
    decide
  have hcut : (nameField removeAb).take (pathMax - 1) = slashes (4092 + 1) ++ lit "a" := by
    have hrest : lit "ab" = lit "a" ++ [98] := by decide
    have hlen' : pathMax - 1 = (slashes (4092 + 1) ++ lit "a").length := by
      rw [List.length_append, length_slashes]
      rfl
    rw [hfield, hrest, ← List.append_assoc, hlen']
    exact List.take_left
  have htaken : takenName removeAb = some (slashes (4092 + 1) ++ lit "a") := by
    have hne : slashes (4092 + 1) ++ lit "a" ≠ [] := List.append_ne_nil_of_right_ne_nil _ (by decide)
    rw [takenName_of_valid hvalid, cstr_eq_self h0, hcut, if_pos (.inr ⟨harg, (hdata ▸ hlen).le, hne⟩)]
  refine ⟨hvalid, fun hwhole => ?_, _, htaken, resolveTargetPath_slashes (by decide)⟩
  -- the name that was sent is longer by a byte
  have heq := congrArg List.length (hwhole _ htaken)
  rw [cstr_eq_self h0, hfield, hlen, List.length_append, length_slashes] at heq
  exact absurd heq (by decide)

end Server

/-! ## Scans -/

/-- `"%s"` on memory that ends with the buffer: the bytes before the first NUL, or `none` when the scan reaches the
end. -/
def scan : Bytes → Option Bytes
  | [] => none
  | b :: buf => if b = 0 then some [] else (scan buf).map (b :: ·)

/-- `extract_file_info` with its scan; the outer `none` is a scan that leaves the payload. -/
def scanFileInfo (packet : Packet) (fileNameSz : Nat) : Option (Option (Bytes × UInt64)) :=
  match packet.payload with
  | none => some none
  | some payload =>
    if packet.header.dataLen ≠ .ofNat fileInfoSize then some none
    else (scan payload).map fun name => some (truncate fileNameSz name, loadU64 (payload.drop pathMax))

/-- `print_text_from_packet`: the line that is printed, if any; the outer `none` as before. -/
def printTextFromPacket (packet : Packet) : Option (Option Bytes) :=
  match packet.payload with
  | none => some none
  | some payload => if packet.header.dataLen > 0 then (scan payload).map fun text => some (text ++ [10]) else some none

/-- No scan of a received packet leaves its payload: on the server of an upload request, on the client of a reply. -/
def ScansInside (packet : Packet) : Prop :=
  (packet.Is .putsReq → scanFileInfo packet pathMax ≠ none) ∧
    (packet.Is .ack ∨ packet.Is .error → printTextFromPacket packet ≠ none)

/-- A scan stops at the first NUL. -/
theorem scan_eq_some {buf s : Bytes} : scan buf = some s ↔ 0 ∉ s ∧ s ++ [0] <+: buf := by
  induction buf generalizing s with
  | nil => simp [scan]
  | cons b buf ih =>
    rw [scan]
    split
    · rename_i hb
      subst hb
      constructor
      · intro h
        obtain rfl := Option.some.inj h
        simp
      · rintro ⟨h0, h⟩
        cases s with
        | nil => rfl
        | cons c s =>
          rw [List.cons_append, List.cons_prefix_cons] at h
          exact absurd (h.1 ▸ List.mem_cons_self) h0
    · rename_i hb
      rw [Option.map_eq_some_iff]
      constructor
      · rintro ⟨t, ht, rfl⟩
        obtain ⟨h0, h⟩ := ih.1 ht
        exact ⟨by simpa [Ne.symm hb] using h0, List.cons_prefix_cons.2 ⟨rfl, h⟩⟩
      · rintro ⟨h0, h⟩
        cases s with
        | nil =>
          rw [List.nil_append, List.cons_prefix_cons] at h
          exact absurd h.1.symm hb
        | cons c s =>
          rw [List.cons_append, List.cons_prefix_cons] at h
          obtain ⟨rfl, h⟩ := h
          exact ⟨s, ih.2 ⟨fun hs => h0 (List.mem_cons_of_mem _ hs), h⟩, rfl⟩

/-- The scan leaves the buffer exactly when that has no NUL. -/
theorem scan_eq_none {buf : Bytes} : scan buf = none ↔ 0 ∉ buf := by
  induction buf with
  | nil => simp [scan]
  | cons b buf ih =>
    rw [scan, List.mem_cons, not_or]
    split
    · rename_i hb
      simp [hb]
    · rename_i hb
      rw [Option.map_eq_none_iff, ih]
      exact ⟨fun h => ⟨Ne.symm hb, h⟩, And.right⟩

/-- As long as it stays inside, the scan gives the C string. -/
theorem scan_eq_cstr {buf : Bytes} (h : 0 ∈ buf) : scan buf = some (cstr buf) := by
  rcases hs : scan buf with _ | s
  · exact absurd h (scan_eq_none.1 hs)
  · obtain ⟨h0, rest, rfl⟩ := scan_eq_some.1 hs
    rw [List.append_assoc, List.singleton_append, cstr_append_zero h0]

section Scans

variable {packet : Packet}

/-- With its scan inside, `extract_file_info` does what the model of the server says. -/
theorem scanFileInfo_eq_some {fileNameSz : Nat} {r : Option (Bytes × UInt64)}
    (h : scanFileInfo packet fileNameSz = some r) : r = extractFileInfo packet fileNameSz := by
  rcases hpayload : packet.payload with _ | payload
  · simp only [scanFileInfo, hpayload] at h
    simp only [extractFileInfo, hpayload]
    exact (Option.some.inj h).symm
  simp only [scanFileInfo, hpayload] at h
  simp only [extractFileInfo, hpayload]
  by_cases hlen : packet.header.dataLen ≠ .ofNat fileInfoSize
  · rw [if_pos hlen] at h ⊢
    exact (Option.some.inj h).symm
  · rw [if_neg hlen] at h ⊢
    by_cases h0 : 0 ∈ payload
    · rw [scan_eq_cstr h0] at h
      exact (Option.some.inj h).symm
    · rw [scan_eq_none.2 h0] at h
      cases h

theorem scanFileInfo_of_valid (hp : packet.Valid) {fileNameSz : Nat} :
    scanFileInfo packet fileNameSz = none ↔ packet.data.length = fileInfoSize ∧ 0 ∉ packet.data := by
  have hlen := hp.dataLen_eq_fileInfo
  unfold scanFileInfo
  by_cases hd : packet.data = []
  · simp [hp.payload_eq_none hd, hd, fileInfoSize, pathMax]
  · simp only [Packet.payload_eq hd, ne_eq, hlen]
    split
    · rename_i hne
      simp [hne]
    · rename_i heq
      rw [Option.map_eq_none_iff, scan_eq_none]
      exact ⟨fun h0 => ⟨not_not.1 heq, h0⟩, And.right⟩

theorem printTextFromPacket_of_valid (hp : packet.Valid) :
    printTextFromPacket packet = none ↔ packet.data ≠ [] ∧ 0 ∉ packet.data := by
  unfold printTextFromPacket
  by_cases hd : packet.data = []
  · simp [hp.payload_eq_none hd, hd]
  · have hpos : packet.header.dataLen > 0 := UInt32.pos_iff_ne_zero.2 fun h => hd (hp.dataLen_eq_zero.1 h)
    simp only [Packet.payload_eq hd, if_pos hpos, Option.map_eq_none_iff, scan_eq_none]
    exact ⟨fun h0 => ⟨hd, h0⟩, And.right⟩

/-- The packets with a text that is scanned. -/
def Scanned (packet : Packet) : Prop :=
  packet.Is .putsReq ∧ packet.data.length = fileInfoSize ∨ (packet.Is .ack ∨ packet.Is .error) ∧ packet.data ≠ []

/-- **A scan stays inside the payload exactly when some byte of that is NUL**, in the text or, for a name, in the
size that follows it. -/
theorem scansInside_iff (hp : packet.Valid) : ScansInside packet ↔ (Scanned packet → 0 ∈ packet.data) := by
  rw [ScansInside, ne_eq, ne_eq, scanFileInfo_of_valid hp, printTextFromPacket_of_valid hp]
  constructor
  · rintro ⟨hinfo, htext⟩ (⟨hputs, hlen⟩ | ⟨hreply, hne⟩)
    · by_contra h0
      exact hinfo hputs ⟨hlen, h0⟩
    · by_contra h0
      exact htext hreply ⟨hne, h0⟩
  · intro h
    exact ⟨fun hputs ⟨hlen, h0⟩ => h0 (h (.inl ⟨hputs, hlen⟩)), fun hreply ⟨hne, h0⟩ => h0 (h (.inr ⟨hreply, hne⟩))⟩

theorem scansInside_text : (Server.textPacket .ack .ok (lit "a")).Valid ∧
    ScansInside (Server.textPacket .ack .ok (lit "a")) := by
  have hv : (Server.textPacket .ack .ok (lit "a")).Valid := Server.textPacket_valid (by decide)
  exact ⟨hv, (scansInside_iff hv).2 fun _ => by decide⟩

/-- A reply of one byte, and a request of the right size, without a NUL. -/
theorem scans_leave : (Packet.of .ack .ok (lit "a")).Valid ∧ ¬ ScansInside (.of .ack .ok (lit "a")) ∧
    (Packet.of .putsReq .ok (List.replicate fileInfoSize 1)).Valid ∧
    ¬ ScansInside (.of .putsReq .ok (List.replicate fileInfoSize 1)) := by
  have hack : (Packet.of .ack .ok (lit "a")).Valid := Packet.of_valid _ _ (by decide)
  have hputs : (Packet.of .putsReq .ok (List.replicate fileInfoSize 1)).Valid :=
    Packet.of_valid _ _ (by rw [List.length_replicate]; decide)
  refine ⟨hack, fun h => ?_, hputs, fun h => ?_⟩
  · refine h.2 (.inl (Packet.of_is.2 rfl)) ((printTextFromPacket_of_valid hack).2 ?_)
    rw [Packet.data_of]
    decide
  · refine h.1 (Packet.of_is.2 rfl) ((scanFileInfo_of_valid hputs).2 ?_)
    rw [Packet.data_of, List.length_replicate, List.mem_replicate]
    decide

end Scans

end WindCloud
