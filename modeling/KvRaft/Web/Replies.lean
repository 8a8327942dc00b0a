import KvRaft.Web.Wire

/-! # Replies on the wire

The writer of `web-app/src/msgpack.rs`, and the responses of `web-app/src/raft_wire.rs` that have
both an encoder and a decoder. -/

namespace KvRaft.Web

open Bytes Msgpack Reader

/-- Where the tests run. The decoders of responses are compiled for nothing else. -/
abbrev native : Target where
  pointerWidth := 64
  le_pointerWidth := by decide

/-! ## The writer

Its functions append to a buffer. Here they return what they append. -/

namespace Writer

def writeNil : Bytes := [0xc0]

def writeBool (v : Bool) : Bytes := [if v then 0xc3 else 0xc2]

def writeMapHeader (len : UInt32) : Bytes :=
  if len < 16 then [0x80 ||| len.toUInt8]
  else if len ≤ 0xffff then 0xde :: beBytes 2 len.toNat
  else 0xdf :: beBytes 4 len.toNat

def writeRaw (b : Bytes) : Bytes :=
  let len := b.length
  (if len < 32 then [0xa0 ||| UInt8.ofNat len]
  else if len ≤ 0xff then [0xd9, UInt8.ofNat len]
  else if len ≤ 0xffff then 0xda :: beBytes 2 len
  else 0xdb :: beBytes 4 len) ++ b

/-- Only ASCII is written. -/
def writeStr (s : String) : Bytes := writeRaw (ascii s)

def writeBytesField : Option Bytes → Bytes
  | none => writeNil
  | some v => writeRaw v

def writeUint (v : UInt64) : Bytes :=
  if v < 0x80 then [v.toUInt8]
  else if v ≤ 0xff then [0xcc, v.toUInt8]
  else if v ≤ 0xffff then 0xcd :: beBytes 2 v.toNat
  else if v ≤ 0xffffffff then 0xce :: beBytes 4 v.toNat
  else 0xcf :: beBytes 8 v.toNat

def writeInt (v : Int64) : Bytes :=
  if 0 ≤ v then writeUint v.toUInt64
  else if -32 ≤ v then [v.toInt8.toUInt8]
  else if -128 ≤ v then [0xd0, v.toInt8.toUInt8]
  else if -32768 ≤ v then 0xd1 :: beBytes 2 v.toInt16.toUInt16.toNat
  else if -2147483648 ≤ v then 0xd2 :: beBytes 4 v.toInt32.toUInt32.toNat
  else 0xd3 :: beBytes 8 v.toUInt64.toNat

end Writer

open Writer

/-! ## Responses -/

def RpcHeader.writeFields (header : RpcHeader) : Bytes := [
  writeStr "ProtocolVersion", writeInt header.protocolVersion,
  writeStr "ID", writeBytesField header.id,
  writeStr "Addr", writeBytesField header.addr].flatten

def encodeAppendEntriesResponse (resp : AppendEntriesResponse) : Bytes := [
  writeMapHeader 7,
  resp.header.writeFields,
  writeStr "Term", writeUint resp.term,
  writeStr "LastLog", writeUint resp.lastLog,
  writeStr "Success", writeBool resp.success,
  writeStr "NoRetryBackoff", writeBool resp.noRetryBackoff].flatten

def encodeRequestVoteResponse (resp : RequestVoteResponse) : Bytes := [
  writeMapHeader 6,
  resp.header.writeFields,
  writeStr "Term", writeUint resp.term,
  writeStr "Peers", writeBytesField resp.peers,
  writeStr "Granted", writeBool resp.granted].flatten

section

variable [Target]

def appendEntriesResponseFields : Fields AppendEntriesResponse := [
  (ascii "ProtocolVersion", fun s => do return { s with header.protocolVersion := ← readInt }),
  (ascii "ID", fun s => do return { s with header.id := ← readBytesField }),
  (ascii "Addr", fun s => do return { s with header.addr := ← readBytesField }),
  (ascii "Term", fun s => do return { s with term := ← readUint }),
  (ascii "LastLog", fun s => do return { s with lastLog := ← readUint }),
  (ascii "Success", fun s => do return { s with success := ← readBool }),
  (ascii "NoRetryBackoff", fun s => do return { s with noRetryBackoff := ← readBool })]

def decodeAppendEntriesResponse : Reader AppendEntriesResponse :=
  readMapFields appendEntriesResponseFields ⟨{}, 0, 0, false, false⟩

def requestVoteResponseFields : Fields RequestVoteResponse := [
  (ascii "ProtocolVersion", fun s => do return { s with header.protocolVersion := ← readInt }),
  (ascii "ID", fun s => do return { s with header.id := ← readBytesField }),
  (ascii "Addr", fun s => do return { s with header.addr := ← readBytesField }),
  (ascii "Term", fun s => do return { s with term := ← readUint }),
  (ascii "Peers", fun s => do return { s with peers := ← readBytesField }),
  (ascii "Granted", fun s => do return { s with granted := ← readBool })]

def decodeRequestVoteResponse : Reader RequestVoteResponse :=
  readMapFields requestVoteResponseFields ⟨{}, 0, none, false⟩

end

/-! ## What is written is a form -/

theorem boolForm_writeBool (v : Bool) : BoolForm v (writeBool v) := by
  cases v with
  | true => exact .true
  | false => exact .false

theorem mapHead_writeMapHeader (len : UInt32) : MapHead len.toNat (writeMapHeader len) := by
  have hlt := len.toNat_lt
  unfold writeMapHeader
  split_ifs with h₁ h₂
  · have hfix : ∀ n < 16, 0x80 ||| UInt8.ofNat n = 0x80 + UInt8.ofNat n := by decide
    have h₁ : len.toNat < 16 := UInt32.lt_iff_toNat_lt.mp h₁
    rw [← UInt8.ofNat_uInt32ToNat, hfix _ h₁]
    exact .fix h₁
  · have h₂ : len.toNat ≤ 0xffff := UInt32.le_iff_toNat_le.mp h₂
    exact .wide (by simp) (by omega)
  · exact .wide (by simp) hlt

theorem rawForm_writeRaw {b : Bytes} (hb : b.length < 2 ^ 32) : RawForm b (writeRaw b) := by
  unfold writeRaw
  dsimp only
  split_ifs with h₁ h₂ h₃
  · have hfix : ∀ n < 32, 0xa0 ||| UInt8.ofNat n = UInt8.ofNat (0xa0 + n) := by decide
    rw [hfix _ h₁]
    exact .fix h₁
  · exact .wide (k := 1) (by simp) (by omega)
  · exact .wide (by simp) (by omega)
  · exact .wide (by simp) hb

/-- The length of a byte field is written in at most 32 bits. -/
def Sized (o : Option Bytes) : Prop := ∀ b ∈ o, b.length < 2 ^ 32

theorem optForm_writeBytesField {o : Option Bytes} (ho : Sized o) :
    OptForm o (writeBytesField o) := by
  cases o with
  | none => exact .nil
  | some b => exact .raw (rawForm_writeRaw (ho b rfl))

theorem uintForm_writeUint (v : UInt64) : UintForm v.toNat (writeUint v) := by
  have hlt := v.toNat_lt
  unfold writeUint
  rw [← UInt8.ofNat_uInt64ToNat]
  simp only [UInt64.lt_iff_toNat_lt, UInt64.le_iff_toNat_le]
  split_ifs with h₁ h₂ h₃ h₄
  · exact .fix h₁
  · exact .wide (k := 1) (by simp) (Nat.lt_succ_of_le h₂)
  · exact .wide (by simp) (Nat.lt_succ_of_le h₃)
  · exact .wide (by simp) (Nat.lt_succ_of_le h₄)
  · exact .wide (by simp) hlt

theorem toNat_signExtend {k : Nat} (hk : k ≤ 64) (v : Int64) :
    (v.toBitVec.signExtend k).toNat = (v.toInt % 2 ^ k).toNat := by
  have hv : v.toInt % 2 ^ 64 = v.toBitVec.toNat := by
    have hlt := v.toBitVec.isLt
    show v.toBitVec.toInt % 2 ^ 64 = _
    rw [BitVec.toInt_eq_toNat_cond]
    split <;> omega
  rw [BitVec.signExtend_eq_setWidth_of_le _ hk, BitVec.toNat_setWidth,
    ← Int.emod_emod_of_dvd _ (pow_dvd_pow (2 : Int) hk), hv]
  norm_cast

theorem toNat_toUInt64 (v : Int64) : v.toUInt64.toNat = (v.toInt % 2 ^ 64).toNat := by
  have h := toNat_signExtend (le_refl 64) v
  rwa [BitVec.signExtend_eq] at h

theorem toUInt8_toInt8 (v : Int64) : v.toInt8.toUInt8 = UInt8.ofNat (v.toInt % 2 ^ 8).toNat := by
  rw [← toNat_signExtend (by decide)]
  exact UInt8.ofNat_toNat.symm

theorem sintForm_writeInt (v : Int64) : SintForm v.toInt (writeInt v) := by
  have hmin : -2 ^ 63 ≤ v.toInt := v.le_toInt
  have hmax : v.toInt < 2 ^ 63 := v.toInt_lt
  unfold writeInt
  rw [toUInt8_toInt8]
  simp only [Int64.le_iff_toInt_le]
  split_ifs with h₁ h₂ h₃ h₄ h₅
  · refine .unsigned ?_ (uintForm_writeUint _)
    have h₁ : 0 ≤ v.toInt := h₁
    rw [toNat_toUInt64]
    omega
  · have h₁ : ¬ 0 ≤ v.toInt := h₁
    have h₂ : -32 ≤ v.toInt := h₂
    have hmod : v.toInt % 2 ^ 8 = v.toInt + 256 := by omega
    rw [hmod]
    exact .fix ⟨h₂, by omega⟩
  · have h₁ : ¬ 0 ≤ v.toInt := h₁
    have h₃ : -128 ≤ v.toInt := h₃
    exact .wide (k := 1) (by simp) (by omega)
  · have h₁ : ¬ 0 ≤ v.toInt := h₁
    have h₄ : -32768 ≤ v.toInt := h₄
    rw [show v.toInt16.toUInt16.toNat = _ from toNat_signExtend (by decide) v]
    exact .wide (k := 2) (by simp) (by omega)
  · have h₁ : ¬ 0 ≤ v.toInt := h₁
    have h₅ : -2147483648 ≤ v.toInt := h₅
    rw [show v.toInt32.toUInt32.toNat = _ from toNat_signExtend (by decide) v]
    exact .wide (k := 4) (by simp) (by omega)
  · rw [toNat_toUInt64]
    exact .wide (k := 8) (by simp) (by omega)

theorem mapForm_written {σ : Type} {fields : List (FieldForm σ)} {values : List Bytes}
    (len : UInt32)
    (hlen : len.toNat = fields.length) (hnames : ∀ f ∈ fields, f.name.length < 2 ^ 32)
    (hvalues : List.Forall₂ FieldForm.form fields values) :
    MapForm fields (writeMapHeader len ++
      (List.zipWith (fun f value => writeRaw f.name ++ value) fields values).flatten) := by
  have hkeys :
      List.Forall₂ (fun f key => RawForm f.name key) fields (fields.map fun f => writeRaw f.name) :=
    List.forall₂_map_right_iff.mpr (List.forall₂_same.mpr fun f hf =>
      rawForm_writeRaw (hnames f hf))
  have h := MapForm.of_forall₂ (hlen ▸ mapHead_writeMapHeader len) hkeys hvalues
  rwa [List.zipWith_map_left] at h

/-! ## Forms of the responses -/

def appendEntriesResponseForms (resp : AppendEntriesResponse) :
    List (FieldForm AppendEntriesResponse) :=
  headerForms resp.header (fun g s => { s with header := g s.header }) ++ [
  ⟨ascii "Term", UintForm resp.term.toNat, fun s => { s with term := resp.term }⟩,
  ⟨ascii "LastLog", UintForm resp.lastLog.toNat, fun s => { s with lastLog := resp.lastLog }⟩,
  ⟨ascii "Success", BoolForm resp.success, fun s => { s with success := resp.success }⟩,
  ⟨ascii "NoRetryBackoff", BoolForm resp.noRetryBackoff,
    fun s => { s with noRetryBackoff := resp.noRetryBackoff }⟩]

def requestVoteResponseForms (resp : RequestVoteResponse) : List (FieldForm RequestVoteResponse) :=
  headerForms resp.header (fun g s => { s with header := g s.header }) ++ [
  ⟨ascii "Term", UintForm resp.term.toNat, fun s => { s with term := resp.term }⟩,
  ⟨ascii "Peers", OptForm resp.peers, fun s => { s with peers := resp.peers }⟩,
  ⟨ascii "Granted", BoolForm resp.granted, fun s => { s with granted := resp.granted }⟩]

/-- Both byte fields of the header are. -/
def RpcHeader.Sized (header : RpcHeader) : Prop := Web.Sized header.id ∧ Web.Sized header.addr

theorem mapForm_encodeAppendEntriesResponse {resp : AppendEntriesResponse} (h : resp.header.Sized) :
    MapForm (appendEntriesResponseForms resp) (encodeAppendEntriesResponse resp) := by
  have hvalues : List.Forall₂ FieldForm.form (appendEntriesResponseForms resp)
      [writeInt resp.header.protocolVersion, writeBytesField resp.header.id,
        writeBytesField resp.header.addr,
        writeUint resp.term, writeUint resp.lastLog, writeBool resp.success,
          writeBool resp.noRetryBackoff] :=
    .cons (sintForm_writeInt _) <| .cons (optForm_writeBytesField h.1) <|
      .cons (optForm_writeBytesField h.2) <|
      .cons (uintForm_writeUint _) <| .cons (uintForm_writeUint _) <|
        .cons (boolForm_writeBool _) <|
      .cons (boolForm_writeBool _) .nil
  have hnames : ∀ f ∈ appendEntriesResponseForms resp, f.name.length < 2 ^ 32 := by
    simp [appendEntriesResponseForms, headerForms, ascii]
  have hmap := mapForm_written 7 rfl hnames hvalues
  simpa [encodeAppendEntriesResponse, RpcHeader.writeFields, writeStr, appendEntriesResponseForms,
    headerForms]
    using hmap

theorem mapForm_encodeRequestVoteResponse {resp : RequestVoteResponse} (h : resp.header.Sized)
    (hpeers : Sized resp.peers) :
    MapForm (requestVoteResponseForms resp) (encodeRequestVoteResponse resp) := by
  have hvalues : List.Forall₂ FieldForm.form (requestVoteResponseForms resp)
      [writeInt resp.header.protocolVersion, writeBytesField resp.header.id,
        writeBytesField resp.header.addr,
        writeUint resp.term, writeBytesField resp.peers, writeBool resp.granted] :=
    .cons (sintForm_writeInt _) <| .cons (optForm_writeBytesField h.1) <|
      .cons (optForm_writeBytesField h.2) <|
      .cons (uintForm_writeUint _) <| .cons (optForm_writeBytesField hpeers) <|
        .cons (boolForm_writeBool _) .nil
  have hnames : ∀ f ∈ requestVoteResponseForms resp, f.name.length < 2 ^ 32 := by
    simp [requestVoteResponseForms, headerForms, ascii]
  have hmap := mapForm_written 6 rfl hnames hvalues
  simpa [encodeRequestVoteResponse, RpcHeader.writeFields, writeStr, requestVoteResponseForms,
    headerForms]
    using hmap

/-! ## Reading them back -/

section

variable [Target] {α : Type} {w : Bytes} {a : α}

theorem takes_appendEntriesResponse (resp : AppendEntriesResponse) :
    Takes appendEntriesResponseFields (appendEntriesResponseForms resp) ⟨{}, 0, 0, false,
      false⟩ := by
  refine ⟨fun _ => True, trivial,
    knows_headerForms rfl rfl rfl (by exact fun _ _ => id) _ <|
    knows_cons gives_readUint rfl rfl (fun _ => id) <|
    knows_cons gives_readUint rfl rfl (fun _ => id) <|
    knows_cons gives_readBool rfl rfl (fun _ => id) <|
    knows_cons gives_readBool rfl rfl (fun _ => id) <|
    List.forall_mem_nil _, ?_⟩
  simp [AnyOrder, appendEntriesResponseForms, headerForms]

theorem gives_decodeAppendEntriesResponse {resp : AppendEntriesResponse}
    (h : MapForm (appendEntriesResponseForms resp) w) : Gives decodeAppendEntriesResponse w resp :=
  gives_readMapFields (takes_appendEntriesResponse resp) rfl h

theorem takes_requestVoteResponse (resp : RequestVoteResponse) :
    Takes requestVoteResponseFields (requestVoteResponseForms resp) ⟨{}, 0, none, false⟩ := by
  refine ⟨fun _ => True, trivial,
    knows_headerForms rfl rfl rfl (by exact fun _ _ => id) _ <|
    knows_cons gives_readUint rfl rfl (fun _ => id) <|
    knows_cons gives_readBytesField rfl rfl (fun _ => id) <|
    knows_cons gives_readBool rfl rfl (fun _ => id) <|
    List.forall_mem_nil _, ?_⟩
  simp [AnyOrder, requestVoteResponseForms, headerForms]

theorem gives_decodeRequestVoteResponse {resp : RequestVoteResponse}
    (h : MapForm (requestVoteResponseForms resp) w) : Gives decodeRequestVoteResponse w resp :=
  gives_readMapFields (takes_requestVoteResponse resp) rfl h

theorem Reader.Closed.decodeAppendEntriesResponse {C : ∀ {α : Type}, Reader α → Prop}
    (hC : Closed C) : C decodeAppendEntriesResponse :=
  hC.readMapFields (hC.headerArms <| hC.arm hC.readUint <| hC.arm hC.readUint <|
    hC.arm hC.readBool <| hC.arm hC.readBool (List.forall_mem_nil _)) _

theorem Reader.Closed.decodeRequestVoteResponse {C : ∀ {α : Type}, Reader α → Prop}
    (hC : Closed C) : C decodeRequestVoteResponse :=
  hC.readMapFields (hC.headerArms <| hC.arm hC.readUint <| hC.arm hC.readBytesField <|
    hC.arm hC.readBool (List.forall_mem_nil _)) _

/-- `p` reads `a` off the whole of `w`, whatever follows it, and asks for more of anything less. -/
structure ReadsBack (p : Reader α) (w : Bytes) (a : α) : Prop where
  whole : ∀ more, p (w ++ more) 0 = .ok (a, w.length)
  short : ∀ u, u <+: w → u ≠ w → p u 0 = .error (.err .unexpectedEof)

theorem readsBack_of_gives {p : Reader α} (hs : Streams p) (hg : Gives p w a)
    (hfit : w.length < 2 ^ Target.pointerWidth) : ReadsBack p w a where
  whole more := run_of_gives hg [] more hfit
  short u hu hne := by
    have hlt : u.length < w.length := lt_of_le_of_ne hu.length_le fun h => hne (hu.eq_of_length h)
    obtain ⟨more, rfl⟩ := hu
    exact hs.eof_of_short hg hfit (List.append_nil _).symm hlt

end

/-! ## Lengths -/

theorem length_writeUint_le (v : UInt64) : (writeUint v).length ≤ 9 := by
  unfold writeUint
  split_ifs <;> simp

theorem length_writeInt_le (v : Int64) : (writeInt v).length ≤ 9 := by
  have hle := length_writeUint_le v.toUInt64
  unfold writeInt
  split_ifs
  · exact hle
  all_goals simp

theorem length_writeRaw_le (b : Bytes) : (writeRaw b).length ≤ b.length + 5 := by
  unfold writeRaw
  dsimp only
  rw [List.length_append, Nat.add_comm]
  split_ifs <;> simp

theorem length_writeBytesField_lt {o : Option Bytes} (ho : Sized o) :
    (writeBytesField o).length < 2 ^ 32 + 5 := by
  cases o with
  | none => simp [writeBytesField, writeNil]
  | some b =>
    have hle := length_writeRaw_le b
    have hlt := ho b rfl
    show (writeRaw b).length < _
    omega

theorem length_writeFields_lt {header : RpcHeader} (h : header.Sized) :
    header.writeFields.length < 2 ^ 34 := by
  have hid := length_writeBytesField_lt h.1
  have haddr := length_writeBytesField_lt h.2
  have hversion := length_writeInt_le header.protocolVersion
  have hnames :
      (writeStr "ProtocolVersion").length + (writeStr "ID").length + (writeStr "Addr").length =
        24 := by decide
  simp only [RpcHeader.writeFields, List.flatten_cons, List.flatten_nil, List.length_append,
    List.length_nil]
  omega

theorem length_writeMapHeader_le (len : UInt32) : (writeMapHeader len).length ≤ 5 := by
  unfold writeMapHeader
  split_ifs <;> simp

theorem length_encodeAppendEntriesResponse_lt {resp : AppendEntriesResponse}
    (h : resp.header.Sized) :
    (encodeAppendEntriesResponse resp).length < 2 ^ 35 := by
  have hheader := length_writeFields_lt h
  have hhead := length_writeMapHeader_le 7
  have hterm := length_writeUint_le resp.term
  have hlast := length_writeUint_le resp.lastLog
  have hnames :
      (writeStr "Term").length + (writeStr "LastLog").length + (writeStr "Success").length +
      (writeStr "NoRetryBackoff").length = 36 := by decide
  simp only [encodeAppendEntriesResponse, writeBool, List.flatten_cons, List.flatten_nil,
    List.length_append, List.length_cons, List.length_nil]
  omega

theorem length_encodeRequestVoteResponse_lt {resp : RequestVoteResponse} (h : resp.header.Sized)
    (hpeers : Sized resp.peers) : (encodeRequestVoteResponse resp).length < 2 ^ 35 := by
  have hheader := length_writeFields_lt h
  have hhead := length_writeMapHeader_le 6
  have hterm := length_writeUint_le resp.term
  have hlen := length_writeBytesField_lt hpeers
  have hnames :
      (writeStr "Term").length + (writeStr "Peers").length + (writeStr "Granted").length =
        19 := by decide
  simp only [encodeRequestVoteResponse, writeBool, List.flatten_cons, List.flatten_nil,
    List.length_append, List.length_cons, List.length_nil]
  omega

/-! ## Replies -/

section

variable [Target]

theorem readsBack_writeUint (v : UInt64) : ReadsBack readUint (writeUint v) v := by
  have hlen : (writeUint v).length < 2 ^ 32 := (length_writeUint_le v).trans_lt (by decide)
  exact readsBack_of_gives combines_streams.readUint (gives_readUint (uintForm_writeUint v))
    (hlen.trans_le Target.le_two_pow)

theorem readsBack_writeInt (v : Int64) : ReadsBack readInt (writeInt v) v := by
  have hlen : (writeInt v).length < 2 ^ 32 := (length_writeInt_le v).trans_lt (by decide)
  exact readsBack_of_gives combines_streams.readInt (gives_readInt (sintForm_writeInt v))
    (hlen.trans_le Target.le_two_pow)

theorem readsBack_writeRaw {b : Bytes} (hb : b.length < 2 ^ 32)
    (hfit : (writeRaw b).length < 2 ^ Target.pointerWidth) : ReadsBack readRaw (writeRaw b) b :=
  readsBack_of_gives closed_streams.readRaw (gives_readRaw (rawForm_writeRaw hb)) hfit

theorem readsBack_encodeAppendEntriesResponse {resp : AppendEntriesResponse} (h : resp.header.Sized)
    (hfit : (encodeAppendEntriesResponse resp).length < 2 ^ Target.pointerWidth) :
    ReadsBack decodeAppendEntriesResponse (encodeAppendEntriesResponse resp) resp :=
  readsBack_of_gives closed_streams.decodeAppendEntriesResponse
    (gives_decodeAppendEntriesResponse (mapForm_encodeAppendEntriesResponse h)) hfit

theorem readsBack_encodeRequestVoteResponse {resp : RequestVoteResponse} (h : resp.header.Sized)
    (hpeers : Sized resp.peers)
    (hfit : (encodeRequestVoteResponse resp).length < 2 ^ Target.pointerWidth) :
    ReadsBack decodeRequestVoteResponse (encodeRequestVoteResponse resp) resp :=
  readsBack_of_gives closed_streams.decodeRequestVoteResponse
    (gives_decodeRequestVoteResponse (mapForm_encodeRequestVoteResponse h hpeers)) hfit

end

/-- Whatever is written is read back: the numbers, the byte strings, the replies. -/
theorem replies_read_back :
    (∀ v : UInt64, ReadsBack (@readUint native) (writeUint v) v) ∧
      (∀ v : Int64, ReadsBack (@readInt native) (writeInt v) v) ∧
      (∀ b : Bytes, b.length < 2 ^ 32 → ReadsBack (@readRaw native) (writeRaw b) b) ∧
      (∀ resp : AppendEntriesResponse, resp.header.Sized →
        ReadsBack (@decodeAppendEntriesResponse native) (encodeAppendEntriesResponse resp) resp) ∧
      ∀ resp : RequestVoteResponse, resp.header.Sized → Sized resp.peers →
        ReadsBack (@decodeRequestVoteResponse native) (encodeRequestVoteResponse resp) resp := by
  -- no buffer of these is too long for 64 bits
  have hwide {n : Nat} (h : n < 2 ^ 35) : n < 2 ^ native.pointerWidth := h.trans (by decide)
  refine ⟨@readsBack_writeUint native, @readsBack_writeInt native, fun b hb => ?_, fun resp h => ?_,
    fun resp h hpeers => ?_⟩
  · have hle := length_writeRaw_le b
    exact @readsBack_writeRaw native b hb (hwide (by omega))
  · exact @readsBack_encodeAppendEntriesResponse native resp h
      (hwide (length_encodeAppendEntriesResponse_lt h))
  · exact @readsBack_encodeRequestVoteResponse native resp h hpeers
      (hwide (length_encodeRequestVoteResponse_lt h hpeers))

/-- A vote, in 53 bytes. -/
theorem replies_read_back_vote :
    @decodeRequestVoteResponse native
      (encodeRequestVoteResponse ⟨⟨3, some (ascii "a"), none⟩, 300, none, true⟩) 0 =
      .ok (⟨⟨3, some (ascii "a"), none⟩, 300, none, true⟩, 53) := by
  have hid : Sized (some (ascii "a")) := fun b hb => by
    cases hb
    decide
  have hnone : Sized none := fun b hb => by cases hb
  have h :=
    (replies_read_back.2.2.2.2 ⟨⟨3, some (ascii "a"), none⟩, 300, none, true⟩ ⟨hid,
      hnone⟩ hnone).whole []
  rw [List.append_nil] at h
  exact h

end KvRaft.Web
