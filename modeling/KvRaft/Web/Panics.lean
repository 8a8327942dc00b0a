import KvRaft.Web.Entries
import KvRaft.Web.Wire

/-! # Where the browser's decoders panic

A length of four bytes is added to a position in 32 bits before it is compared with the buffer. A
sum that wraps around passes the comparison, and the slice that follows ends before it starts. Every
other length is refused if it is too long, so the positions of the decoders stay
within the buffer. -/

namespace KvRaft.Web

open Bytes Reader

/-- What a slice can hold: a slice of Rust has `isize::MAX` bytes at most. -/
abbrev Buffer := { b : Bytes // b.length < 2 ^ 31 }

/-! ## Entries -/

section Entries

variable {b : UInt8} {rest tail : Bytes} {op : Op} {klen : Nat}

theorem decodeCommand_key {key : Bytes} (hop : Op.fromByte b = some op)
    (hlen : (b :: (beBytes 4 key.length ++ (key ++ tail))).length < 2 ^ 31) :
    decodeCommand (b :: (beBytes 4 key.length ++ (key ++ tail))) = decodeValue op key tail := by
  refine decodeCommand_value hop ?_ (by omega)
  simp only [List.length_cons, List.length_append, length_beBytes] at hlen
  omega

theorem decodeCommand_eq (hop : Op.fromByte b = some op) (hk : readNat 4 rest = some (klen, tail))
    (hlen : (b :: rest).length < 2 ^ 31) :
    decodeCommand (b :: rest) =
      if 2 ^ 32 ≤ 5 + klen then .error .panic
      else
        match readBytes klen tail with
        | none => .error (.err .truncatedKey)
        | some (key, tail) => decodeValue op key tail := by
  obtain ⟨hklt, rfl⟩ := readNat_eq_some hk
  rcases Nat.lt_or_ge tail.length klen with hshort | hkey
  · have hsize : (b :: (beBytes 4 klen ++ tail)).length = 5 + tail.length := by
      rw [List.length_cons, List.length_append, length_beBytes]
      omega
    have hklen : (slice (b :: (beBytes 4 klen ++ tail)) 1 5 : Except (Fault FsmError) Bytes) =
        .ok (beBytes 4 klen) := slice_append [b] (beBytes 4 klen) tail
    rw [decodeCommand, if_neg (by omega),
      show (b :: (beBytes 4 klen ++ tail)).head?.bind Op.fromByte = some op from hop]
    simp only [bind, Except.bind, hklen, beNat_beBytes hklt, hsize]
    rcases Nat.lt_or_ge (5 + klen) (2 ^ 32) with hfit | hwrap
    · rw [usizeAdd_of_lt hfit, if_pos (by omega), if_neg (not_le.mpr hfit),
        readBytes_eq_none hshort]
      rfl
    · have hend := (usizeAdd_of_ge hwrap (by omega) (by omega)).1
      rw [if_neg (by omega), slice_panics _ hend, if_pos hwrap]
  · obtain ⟨key, tail, hread⟩ := readBytes_of_le hkey
    obtain ⟨rfl, rfl⟩ := readBytes_eq_some hread
    have hfit : ¬2 ^ 32 ≤ 5 + key.length := by
      simp only [List.length_cons, List.length_append, length_beBytes] at hlen
      omega
    rw [if_neg hfit, hread]
    exact decodeCommand_key hop hlen

variable {data : Bytes}

theorem decodeCommand_short (h : data.length < 5) :
    decodeCommand data = .error (.err .commandTooShort) := if_pos h

theorem decodeCommand_cases (data : Bytes) :
    (∃ e, decodeCommand data = .error (.err e)) ∨
      ∃ b rest op klen tail, data = b :: rest ∧ Op.fromByte b = some op ∧
        readNat 4 rest = some (klen, tail) := by
  rcases data with _ | ⟨b, rest⟩
  · exact .inl ⟨_, decodeCommand_short (by decide)⟩
  rcases Nat.lt_or_ge rest.length 4 with hshort | hlen
  · exact .inl ⟨_, decodeCommand_short (by rw [List.length_cons]; omega)⟩
  obtain ⟨klen, tail, hk⟩ := readNat_of_le hlen
  rcases hop : Op.fromByte b with _ | op
  · exact .inl ⟨_, decodeCommand_unknown hop hlen⟩
  · exact .inr ⟨b, rest, op, klen, tail, rfl, hop, hk⟩

/-- An entry in which the place behind the key or behind the value passes 32 bits. -/
inductive CommandWraps : Bytes → Prop
  | key {b : UInt8} {op : Op} {rest tail : Bytes} {klen : Nat} (hop : Op.fromByte b = some op)
      (hk : readNat 4 rest = some (klen, tail)) (h : 2 ^ 32 ≤ 5 + klen) : CommandWraps (b :: rest)
  | value {b : UInt8} {op : Op} {rest tail key tail' tail'' : Bytes} {klen vlen : Nat}
      (hop : Op.fromByte b = some op) (hk : readNat 4 rest = some (klen, tail))
      (hkey : readBytes klen tail = some (key, tail')) (hv : readNat 4 tail' = some (vlen, tail''))
      (h : 2 ^ 32 ≤ 9 + klen + vlen) : CommandWraps (b :: rest)

theorem decodeCommand_panics_iff (hlen : data.length < 2 ^ 31) :
    decodeCommand data = .error .panic ↔ CommandWraps data := by
  constructor
  · intro h
    obtain ⟨e, he⟩ | ⟨b, rest, op, klen, tail, rfl, hop, hk⟩ := decodeCommand_cases data
    · rw [he] at h
      cases h
    rw [decodeCommand_eq hop hk hlen] at h
    split_ifs at h with hwrap
    · exact .key hop hk hwrap
    rcases hkey : readBytes klen tail with _ | ⟨key, tail'⟩ <;> rw [hkey] at h
    · cases h
    obtain ⟨rfl, -⟩ := readBytes_eq_some hkey
    unfold decodeValue at h
    rcases hv : readNat 4 tail' with _ | ⟨vlen, tail''⟩ <;> simp only [hv] at h
    · cases h
    split_ifs at h with hwrap'
    · exact .value hop hk hkey hv hwrap'
    · split at h <;> cases h
  · rintro (⟨hop, hk, hwrap⟩ | ⟨hop, hk, hkey, hv, hwrap⟩)
    · rw [decodeCommand_eq hop hk hlen, if_pos hwrap]
    · obtain ⟨rfl, rfl⟩ := readBytes_eq_some hkey
      obtain ⟨-, rfl⟩ := readNat_eq_some hk
      rw [decodeCommand_key hop hlen, decodeValue, hv]
      exact if_pos hwrap

theorem decodeCommand_eq_ok_iff (hlen : data.length < 2 ^ 31) {c : Command} :
    decodeCommand data = .ok c ↔ ∃ b more, Op.fromByte b = some c.op ∧
      data = b :: (beBytes 4 c.key.length ++
        (c.key ++ (beBytes 4 c.value.length ++ (c.value ++ more)))) := by
  constructor
  · intro h
    obtain ⟨e, he⟩ | ⟨b, rest, op, klen, tail, rfl, hop, hk⟩ := decodeCommand_cases data
    · rw [he] at h
      cases h
    rw [decodeCommand_eq hop hk hlen] at h
    split_ifs at h
    rcases hkey : readBytes klen tail with _ | ⟨key, tail'⟩ <;> rw [hkey] at h
    · cases h
    unfold decodeValue at h
    rcases hv : readNat 4 tail' with _ | ⟨vlen, tail''⟩ <;> simp only [hv] at h
    · cases h
    split_ifs at h
    rcases hvalue : readBytes vlen tail'' with _ | ⟨value, more⟩ <;> simp only [hvalue] at h
    · cases h
    cases h
    obtain ⟨rfl, rfl⟩ := readBytes_eq_some hvalue
    obtain ⟨-, rfl⟩ := readNat_eq_some hv
    obtain ⟨rfl, rfl⟩ := readBytes_eq_some hkey
    obtain ⟨-, rfl⟩ := readNat_eq_some hk
    exact ⟨b, more, hop, rfl⟩
  · rintro ⟨b, more, hop, rfl⟩
    have hsize : c.key.length + c.value.length + 9 < 2 ^ 31 := by
      simp only [List.length_cons, List.length_append, length_beBytes] at hlen
      omega
    rw [decodeCommand_key hop hlen, decodeValue, readNat_beBytes_append (by omega)]
    simp only
    rw [if_neg (by omega), readBytes_append]

end Entries

/-! ## The same entries in Go -/

def Op.goOp : Op → Kvfsm.OpType
  | .set => .set
  | .del => .del

theorem ofByte_eq_goOp_iff {b : UInt8} {op : Op} :
    Kvfsm.OpType.ofByte b = op.goOp ↔ Op.fromByte b = some op := by
  constructor
  · intro h
    unfold Kvfsm.OpType.ofByte at h
    split_ifs at h with h0 h1 h2 <;> cases op <;> cases h
    · rw [h1]
      rfl
    · rw [h2]
      rfl
  · intro h
    unfold Op.fromByte at h
    split_ifs at h with h1 h2 <;> cases h
    · rw [h1]
      rfl
    · rw [h2]
      rfl

variable {data : Bytes}

/-- Go decodes what the browser decodes. An entry that makes the browser panic is too
short for Go. -/
theorem decodeCommand_ok_iff (hlen : data.length < 2 ^ 31) (op : Op) (key value : Bytes) :
    decodeCommand data = .ok ⟨op, key, value⟩ ↔
      Kvfsm.decodeCommand data = .ok ⟨op.goOp, key, value⟩ := by
  rw [decodeCommand_eq_ok_iff hlen, Kvfsm.decodeCommand_eq_ok_iff (by omega)]
  simp only [ofByte_eq_goOp_iff]

/-! ## Snapshots -/

def snapshotEntriesSliced : Nat → Bytes → Except (Fault FsmError) (List (Bytes × Bytes))
  | 0, _ => .ok []
  | fuel + 1, data =>
    if data = [] then .ok []
    else if data.length < 4 then .error (.err .truncatedSnapshotKeyLength)
    else do
      let klen := beNat (← slice data 0 4)
      let data ← slice data 4 data.length
      if data.length < klen then throw (.err .truncatedSnapshotKey)
      else do
        let key ← slice data 0 klen
        let data ← slice data klen data.length
        if data.length < 4 then throw (.err .truncatedSnapshotValueLength)
        else do
          let vlen := beNat (← slice data 0 4)
          let data ← slice data 4 data.length
          if data.length < vlen then throw (.err .truncatedSnapshotValue)
          else do
            let value ← slice data 0 vlen
            let data ← slice data vlen data.length
            let entries ← snapshotEntriesSliced fuel data
            return (key, value) :: entries

theorem slice_front {n : Nat} (h : n ≤ data.length) :
    (slice data 0 n : Except (Fault FsmError) Bytes) = .ok (data.take n) := by
  rw [slice, if_pos ⟨Nat.zero_le _, h⟩, List.drop_zero]

theorem slice_back {n : Nat} (h : n ≤ data.length) :
    (slice data n data.length : Except (Fault FsmError) Bytes) = .ok (data.drop n) := by
  rw [slice, if_pos ⟨h, le_rfl⟩, List.take_length]

theorem snapshotEntriesSliced_eq (fuel : Nat) (data : Bytes) :
    snapshotEntriesSliced fuel data = (snapshotEntries fuel data).mapError .err := by
  induction fuel generalizing data with
  | zero => rfl
  | succ fuel ih =>
    rw [snapshotEntriesSliced, snapshotEntries]
    split_ifs with hempty hshort
    · rfl
    · rw [readNat_eq_none hshort]
      rfl
    have h4 : 4 ≤ data.length := not_lt.mp hshort
    rw [slice_front h4, slice_back h4, readNat, if_neg hshort]
    simp only [bind, Except.bind]
    generalize beNat (data.take 4) = klen
    generalize data.drop 4 = data
    rw [readBytes]
    split_ifs with hkey
    · rfl
    have hk : klen ≤ data.length := not_lt.mp hkey
    rw [slice_front hk, slice_back hk]
    simp only
    generalize data.take klen = key
    generalize data.drop klen = data
    rw [readNat]
    split_ifs with hshort'
    · rfl
    have h4 : 4 ≤ data.length := not_lt.mp hshort'
    rw [slice_front h4, slice_back h4]
    simp only
    generalize beNat (data.take 4) = vlen
    generalize data.drop 4 = data
    rw [readBytes]
    split_ifs with hvalue
    · rfl
    have hv : vlen ≤ data.length := not_lt.mp hvalue
    rw [slice_front hv, slice_back hv]
    simp only [ih]
    rcases snapshotEntries fuel (data.drop vlen) with e | entries <;> rfl

theorem snapshotEntriesSliced_safe (fuel : Nat) (data : Bytes) :
    snapshotEntriesSliced fuel data ≠ .error .panic := by
  rw [snapshotEntriesSliced_eq]
  rcases snapshotEntries fuel data with e | entries <;> simp [Except.mapError]

/-! ## The reader -/

section Safety

variable {α : Type} {buf : Bytes}

/-- From any position of the buffer on: a value and a position within it, or an error. -/
abbrev Safe (buf : Bytes) (p : Reader α) : Prop := Scan.Within (· ≠ .panic) buf p

variable {pos n : Nat}

theorem Safe.ne_panic {p : Reader α} (hp : Safe buf p) (hpos : pos ≤ buf.length) :
    p buf pos ≠ .error .panic := by
  obtain ⟨a, q, hok, -⟩ | ⟨e, herr, he⟩ := hp pos hpos
  · rw [hok]
    simp
  · rw [herr]
    simpa using he

theorem run_take (hpos : pos ≤ buf.length) (hfit : pos + n < 2 ^ 32) :
    take n buf pos =
      match readBytes n (buf.drop pos) with
      | none => .error (.err .unexpectedEof)
      | some (b, _) => .ok (b, pos + n) := by
  rw [take, usizeAdd_of_lt hfit, readBytes, List.length_drop]
  split_ifs with h₁ h₂ h₂
  · rfl
  · omega
  · omega
  · rw [slice, if_pos ⟨by omega, by omega⟩, List.drop_take, Nat.add_sub_cancel_left]
    rfl

theorem take_panics (hpos : pos ≤ buf.length) (hbuf : buf.length < 2 ^ 31) (hn : n < 2 ^ 32)
    (hwrap : 2 ^ 32 ≤ pos + n) : take n buf pos = .error .panic := by
  have hend := (usizeAdd_of_ge hwrap (by omega) hn).1
  rw [take, if_neg (by omega), slice_panics buf hend]
  rfl

theorem take_within (hpos : pos ≤ buf.length) (hfit : pos + n < 2 ^ 32) :
    (∃ b q, take n buf pos = .ok (b, q) ∧ q ≤ buf.length) ∨
      ∃ e, take n buf pos = .error e ∧ e ≠ .panic := by
  rw [run_take hpos hfit]
  rcases h : readBytes n (buf.drop pos) with _ | ⟨b, rest⟩
  · exact .inr ⟨_, rfl, by simp⟩
  · obtain ⟨rfl, hdrop⟩ := readBytes_eq_some h
    have hlen := congrArg List.length hdrop
    rw [List.length_drop, List.length_append] at hlen
    exact .inl ⟨b, _, rfl, by omega⟩

theorem safe_peek : Safe buf peek := by
  intro pos hpos
  rw [peek]
  rcases buf[pos]? with _ | b
  · exact .inr ⟨_, rfl, by simp⟩
  · exact .inl ⟨b, pos, rfl, hpos⟩

theorem combines_safe (hbuf : buf.length < 2 ^ 31) : Combines (Safe buf) where
  pure := .pure
  fail _ := .throw (by simp)
  bind := .bind
  take hn _ hpos := take_within hpos (by omega)
  peek := safe_peek

/-! ## Strings -/

/-- A string with a length of four bytes, whose end passes 32 bits. -/
def RawWraps (buf : Bytes) (pos : Nat) : Prop :=
  ∃ n tail, buf.drop pos = 0xdb :: (beBytes 4 n ++ tail) ∧ n < 2 ^ 32 ∧ 2 ^ 32 ≤ pos + 5 + n

theorem take_eq_ok {q : Nat} {b : Bytes} (hpos : pos ≤ buf.length) (hfit : pos + n < 2 ^ 32)
    (h : take n buf pos = .ok (b, q)) : b.length = n ∧ q = pos + n ∧
      ∃ tail, buf.drop pos = b ++ tail := by
  rw [run_take hpos hfit] at h
  rcases hread : readBytes n (buf.drop pos) with _ | ⟨b', tail⟩ <;> simp only [hread] at h
  · cases h
  · obtain ⟨rfl, hdrop⟩ := readBytes_eq_some hread
    cases h
    exact ⟨rfl, rfl, tail, hdrop⟩

theorem rawLength_eq_ok {q : Nat} (hbuf : buf.length < 2 ^ 31) (hpos : pos ≤ buf.length)
    (h : rawLength buf pos = .ok (n, q)) :
    n < 2 ^ 16 ∨ ∃ tail, buf.drop pos = 0xdb :: (beBytes 4 n ++ tail) ∧ n < 2 ^ 32 ∧
      q = pos + 5 := by
  obtain ⟨b, r, hbyte, h⟩ := Scan.bind_eq_ok h
  obtain ⟨first, r', htake, hb⟩ := Scan.bind_eq_ok hbyte
  obtain ⟨hone, rfl, tail, hdrop⟩ := take_eq_ok hpos (by omega) htake
  obtain ⟨b', rfl⟩ := List.length_eq_one_iff.mp hone
  cases hb
  have hle : pos + 1 ≤ buf.length := by
    have hlen := congrArg List.length hdrop
    rw [List.length_drop, List.length_append, List.length_singleton] at hlen
    omega
  have hnext : buf.drop (pos + 1) = tail := by
    rw [← List.drop_drop, hdrop]
    rfl
  split_ifs at h with h₁ h₂ h₃ h₄
  · cases h
    exact .inl ((UInt8.toNat_lt _).trans (by decide))
  · obtain ⟨b, r, -, h⟩ := Scan.bind_eq_ok h
    cases h
    exact .inl ((UInt8.toNat_lt b).trans (by decide))
  · obtain ⟨b, r, htake, h⟩ := Scan.bind_eq_ok h
    obtain ⟨hlen, -⟩ := take_eq_ok hle (by omega) htake
    cases h
    exact .inl (by simpa [hlen] using beNat_lt b)
  · obtain ⟨b, r, htake, h⟩ := Scan.bind_eq_ok h
    obtain ⟨hlen, rfl, tail', hdrop'⟩ := take_eq_ok hle (by omega) htake
    cases h
    refine .inr ⟨tail', ?_, by simpa [hlen] using beNat_lt b, rfl⟩
    rw [← hlen, beBytes_beNat, ← hdrop', hnext, hdrop]
    exact congrArg (· :: tail) h₄
  · cases h

theorem readRaw_panics_of_wraps (hbuf : buf.length < 2 ^ 31) (hpos : pos ≤ buf.length)
    (h : RawWraps buf pos) : readRaw buf pos = .error .panic := by
  obtain ⟨n, tail, hdrop, hn, hwrap⟩ := h
  have hsplit : buf.take pos ++ (0xdb :: beBytes 4 n) ++ tail = buf := by
    rw [List.append_assoc, List.cons_append, ← hdrop, List.take_append_drop]
  have hpre : (buf.take pos).length = pos := List.length_take_of_le hpos
  have hlength : Gives rawLength (0xdb :: beBytes 4 n) n :=
    gives_byte_bind (gives_be (by decide) hn id)
  have hend : (buf.take pos ++ (0xdb :: beBytes 4 n)).length = pos + 5 := by
    rw [List.length_append, hpre, List.length_cons, length_beBytes]
  have hle : pos + 5 ≤ buf.length := by
    rw [← hsplit, List.length_append, hend]
    omega
  have hrun := run_of_gives hlength (buf.take pos) tail (show _ < 2 ^ 32 by omega)
  rw [hsplit, hend, hpre] at hrun
  exact (Scan.bind_of_ok hrun).trans (take_panics hle hbuf hn (by omega))

theorem safe_readRaw (hbuf : buf.length < 2 ^ 31) (h : ∀ pos, ¬RawWraps buf pos) :
    Safe buf readRaw := by
  intro pos hpos
  obtain ⟨n, q, hlength, hq⟩ | ⟨e, herr, he⟩ := (combines_safe hbuf).rawLength pos hpos
  · have hfit : q + n < 2 ^ 32 := by
      obtain hn | ⟨tail, hdrop, hn, rfl⟩ := rawLength_eq_ok hbuf hpos hlength
      · omega
      · exact not_le.mp fun hwrap => h pos ⟨n, tail, hdrop, hn, hwrap⟩
    rw [readRaw, Scan.bind_of_ok hlength]
    exact take_within hq hfit
  · exact .inr ⟨e, Scan.bind_of_error herr, he⟩

theorem closed_safe (hbuf : buf.length < 2 ^ 31) (h : ∀ pos, ¬RawWraps buf pos) :
    Closed (Safe buf) where
  toCombines := combines_safe hbuf
  readRaw := safe_readRaw hbuf h

end Safety

/-! ## All decoders -/

/-- No decoder panics on the bytes, and an entry is read as Go reads it. -/
structure DecodersSafe (data : Bytes) : Prop where
  command : decodeCommand data ≠ .error .panic
  same : ∀ op key value,
    decodeCommand data = .ok ⟨op, key, value⟩ ↔ Kvfsm.decodeCommand data = .ok ⟨op.goOp, key, value⟩
  snapshot : snapshotEntriesSliced (data.length + 1) data ≠ .error .panic
  byte : Safe data byte
  peek : Safe data peek
  readNil : Safe data readNil
  isNil : Safe data isNil
  readBool : Safe data readBool
  readMapHeader : Safe data readMapHeader
  readArrayHeader : Safe data readArrayHeader
  readRaw : Safe data readRaw
  readBytesField : Safe data readBytesField
  readUint : Safe data readUint
  readInt : Safe data readInt
  skipValue : Safe data skipValue
  log : Safe data decodeLog
  appendEntries : Safe data decodeAppendEntriesRequest
  requestVote : Safe data decodeRequestVoteRequest
  requestPreVote : Safe data decodeRequestPreVoteRequest
  installSnapshot : Safe data decodeInstallSnapshotRequest
  timeoutNow : Safe data decodeTimeoutNowRequest

/-- The decoders slice beyond a buffer where a length of four bytes, added to its place, passes 32
bits, and nowhere else. The allocation of `Vec::with_capacity` for the entries of a request
is not modelled. -/
theorem decoders_safe_iff (data : Buffer) :
    DecodersSafe data.1 ↔ ¬CommandWraps data.1 ∧ ∀ pos, ¬RawWraps data.1 pos := by
  constructor
  · intro h
    refine ⟨fun hwrap => h.command ((decodeCommand_panics_iff data.2).mpr hwrap),
      fun pos hwrap => ?_⟩
    have hpos : pos ≤ data.1.length := by
      obtain ⟨n, tail, hdrop, -⟩ := hwrap
      by_contra hbeyond
      rw [List.drop_eq_nil_of_le (not_le.mp hbeyond).le] at hdrop
      cases hdrop
    exact h.readRaw.ne_panic hpos (readRaw_panics_of_wraps data.2 hpos hwrap)
  · rintro ⟨hcommand, hraw⟩
    have hC := closed_safe data.2 hraw
    exact {
      command := fun hpanic => hcommand ((decodeCommand_panics_iff data.2).mp hpanic)
      same := decodeCommand_ok_iff data.2
      snapshot := snapshotEntriesSliced_safe _ _
      byte := hC.byte
      peek := hC.peek
      readNil := hC.readNil
      isNil := hC.isNil
      readBool := hC.readBool
      readMapHeader := hC.readHeader _ _ _
      readArrayHeader := hC.readHeader _ _ _
      readRaw := hC.readRaw
      readBytesField := hC.readBytesField
      readUint := hC.readUint
      readInt := hC.readInt
      skipValue := hC.skipValue
      log := hC.decodeLog
      appendEntries := hC.decodeAppendEntriesRequest
      requestVote := hC.decodeRequestVoteRequest
      requestPreVote := hC.decodeRequestPreVoteRequest
      installSnapshot := hC.decodeInstallSnapshotRequest
      timeoutNow := hC.decodeTimeoutNowRequest }

/-- An entry that says its key has `0xffffffff` bytes: Go finds it truncated, the browser panics. So
does every decoder of a request whose first field has a name of that length. -/
theorem decoders_panic :
    decodeCommand [1, 0xff, 0xff, 0xff, 0xff] = .error .panic ∧
      Kvfsm.decodeCommand [1, 0xff, 0xff, 0xff, 0xff] = .error .truncatedKey ∧
      readRaw [0xdb, 0xff, 0xff, 0xff, 0xff] 0 = .error .panic ∧
      decodeAppendEntriesRequest [0x81, 0xdb, 0xff, 0xff, 0xff, 0xff] 0 = .error .panic ∧
      ¬DecodersSafe [1, 0xff, 0xff, 0xff, 0xff] := by
  have hpanic : decodeCommand [1, 0xff, 0xff, 0xff, 0xff] = .error .panic := by decide
  exact ⟨hpanic, by decide, by decide, by decide, fun h => h.command hpanic⟩

end KvRaft.Web
