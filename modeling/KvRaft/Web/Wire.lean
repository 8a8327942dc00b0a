import KvRaft.Web.Learner

/-! # Requests on the wire

What a leader may send for a request: a map with the request's fields in any order, in any of the
forms that msgpack has for their values, as `NetworkTransport` writes a Go struct. The learner's
decoders read every such map back (`gives_decode…`), and have what all its
readers have (`Closed`). -/

namespace KvRaft.Web

open Bytes Msgpack Reader

/-! ## The loop over the fields -/

section

variable [Target] {σ : Type}

theorem Reader.Closed.readMapFields {C : ∀ {α : Type}, Reader α → Prop} (hC : Closed C)
    {fields : Fields σ}
    (h : ∀ f ∈ fields, ∀ s, C (f.2 s)) (s : σ) : C (readMapFields fields s) := by
  have hround (s : σ) : C (readField fields s) := by
    refine hC.bind hC.readRaw fun key => ?_
    rcases hl : fields.lookup key with _ | read
    · exact hC.map hC.skipValue fun _ => s
    · obtain ⟨l₁, l₂, rfl, -⟩ := List.lookup_eq_some_iff.mp hl
      exact h (key, read) (by simp) s
  exact hC.bind (hC.readHeader ..) fun n => hC.iterate hround n s

/-- The table has an arm that takes the field over, into any value with `P`. -/
def Knows (fields : Fields σ) (P : σ → Prop) (f : FieldForm σ) : Prop :=
  ∃ read, fields.lookup f.name = some read ∧
    ∀ w, f.form w → ∀ s, P s → Gives (read s) w (f.copy s) ∧ P (f.copy s)

theorem knows_cons {α : Type} {fields : Fields σ} {P : σ → Prop} {f : FieldForm σ}
    {known : List (FieldForm σ)} {read : Reader α} {v : α} {put : α → σ → σ}
    (hread : ∀ {w}, f.form w → Gives read w v)
    (hl : fields.lookup f.name = some fun s => read >>= fun a => pure (put a s))
    (hcopy : f.copy = put v) (hP : ∀ s, P s → P (put v s)) (h : ∀ f ∈ known, Knows fields P f) :
    ∀ f' ∈ f :: known, Knows fields P f' := by
  refine List.forall_mem_cons.mpr ⟨⟨_, hl, fun w hw s hs => ?_⟩, h⟩
  rw [hcopy]
  exact ⟨(hread hw).map fun a => put a s, hP s hs⟩

/-- The table takes all these fields over, in any order, beginning with `s`. -/
def Takes (fields : Fields σ) (known : List (FieldForm σ)) (s : σ) : Prop :=
  ∃ P : σ → Prop, P s ∧ (∀ f ∈ known, Knows fields P f) ∧ AnyOrder known

theorem Knows.gives_readField {fields : Fields σ} {P : σ → Prop} {i : Item σ}
    (h : Knows fields P i.field) {s : σ}
    (hs : P s) : Gives (readField fields s) i.bytes (i.field.copy s) ∧ P (i.field.copy s) := by
  obtain ⟨read, hread, hgives⟩ := h
  obtain ⟨hg, hP⟩ := hgives i.value i.value_form s hs
  refine ⟨(gives_readRaw i.key_form).bind ?_, hP⟩
  rwa [hread]

theorem gives_readMapFields {fields : Fields σ} {known : List (FieldForm σ)} {s t : σ} {w : Bytes}
    (hknown : Takes fields known s) (ht : known.foldl (fun s f => f.copy s) s = t)
    (h : MapForm known w) :
    Gives (readMapFields fields s) w t := by
  obtain ⟨P, hs, hk, hc⟩ := hknown
  obtain ⟨items, head, hperm, hhead, rfl⟩ := h
  have hround : ∀ i ∈ items, ∀ s, P s →
      Gives (readField fields s) i.bytes (i.field.copy s) ∧ P (i.field.copy s) :=
    fun i hi s hs => (hk i.field (hperm.mem_iff.mp (List.mem_map_of_mem hi))).gives_readField hs
  have hall := Scan.Reads.iterate hround hs
  have hfold : items.foldl (fun s i => i.field.copy s) s = t := by
    rw [← ht, ← foldl_copy_perm hperm hc, List.foldl_map]
  rw [hfold] at hall
  exact (gives_readMapHeader hhead).bind hall

end

/-! ## Forms of the requests -/

def logForms (log : Log) : List (FieldForm Log) := [
  ⟨ascii "Index", UintForm log.index.toNat, fun s => { s with index := log.index }⟩,
  ⟨ascii "Term", UintForm log.term.toNat, fun s => { s with term := log.term }⟩,
  ⟨ascii "Type", UintForm log.logType.toNat, fun s => { s with logType := log.logType }⟩,
  ⟨ascii "Data", OptForm log.data, fun s => { s with data := log.data }⟩,
  ⟨ascii "Extensions", OptForm log.extensions, fun s => { s with extensions := log.extensions }⟩,
  ⟨ascii "AppendedAt", fun w => ∃ time, RawForm time w, id⟩]

/-- An array of entries; none of them may also be `nil`. -/
def EntriesForm (entries : List Log) (w : Bytes) : Prop :=
  entries = [] ∧ w = [0xc0] ∨ ArrayForm (fun log => MapForm (logForms log)) entries w

section

variable {σ : Type}

/-- The fields of the header, which stand among the request's own. -/
def headerForms (header : RpcHeader) (on : (RpcHeader → RpcHeader) → σ → σ) :
    List (FieldForm σ) := [
  ⟨ascii "ProtocolVersion", SintForm header.protocolVersion.toInt,
    on fun h => { h with protocolVersion := header.protocolVersion }⟩,
  ⟨ascii "ID", OptForm header.id, on fun h => { h with id := header.id }⟩,
  ⟨ascii "Addr", OptForm header.addr, on fun h => { h with addr := header.addr }⟩]

end

def appendEntriesForms (req : AppendEntriesRequest) : List (FieldForm AppendEntriesRequest) :=
  headerForms req.header (fun g s => { s with header := g s.header }) ++ [
  ⟨ascii "Term", UintForm req.term.toNat, fun s => { s with term := req.term }⟩,
  ⟨ascii "Leader", OptForm req.leader, fun s => { s with leader := req.leader }⟩,
  ⟨ascii "PrevLogEntry", UintForm req.prevLogEntry.toNat,
    fun s => { s with prevLogEntry := req.prevLogEntry }⟩,
  ⟨ascii "PrevLogTerm", UintForm req.prevLogTerm.toNat,
    fun s => { s with prevLogTerm := req.prevLogTerm }⟩,
  ⟨ascii "LeaderCommitIndex", UintForm req.leaderCommitIndex.toNat,
    fun s => { s with leaderCommitIndex := req.leaderCommitIndex }⟩,
  ⟨ascii "Entries", EntriesForm req.entries, fun s => { s with entries := req.entries }⟩]

def requestVoteForms (req : RequestVoteRequest) : List (FieldForm RequestVoteRequest) :=
  headerForms req.header (fun g s => { s with header := g s.header }) ++ [
  ⟨ascii "Term", UintForm req.term.toNat, fun s => { s with term := req.term }⟩,
  ⟨ascii "Candidate", OptForm req.candidate, fun s => { s with candidate := req.candidate }⟩,
  ⟨ascii "LastLogIndex", UintForm req.lastLogIndex.toNat,
    fun s => { s with lastLogIndex := req.lastLogIndex }⟩,
  ⟨ascii "LastLogTerm", UintForm req.lastLogTerm.toNat,
    fun s => { s with lastLogTerm := req.lastLogTerm }⟩,
  ⟨ascii "LeadershipTransfer", BoolForm req.leadershipTransfer,
    fun s => { s with leadershipTransfer := req.leadershipTransfer }⟩]

def requestPreVoteForms (req : RequestPreVoteRequest) : List (FieldForm RequestPreVoteRequest) :=
  headerForms req.header (fun g s => { s with header := g s.header }) ++ [
  ⟨ascii "Term", UintForm req.term.toNat, fun s => { s with term := req.term }⟩,
  ⟨ascii "LastLogIndex", UintForm req.lastLogIndex.toNat,
    fun s => { s with lastLogIndex := req.lastLogIndex }⟩,
  ⟨ascii "LastLogTerm", UintForm req.lastLogTerm.toNat,
    fun s => { s with lastLogTerm := req.lastLogTerm }⟩]

def installSnapshotForms (req : InstallSnapshotRequest) : List (FieldForm InstallSnapshotRequest) :=
  headerForms req.header (fun g s => { s with header := g s.header }) ++ [
  ⟨ascii "SnapshotVersion", SintForm req.snapshotVersion.toInt,
    fun s => { s with snapshotVersion := req.snapshotVersion }⟩,
  ⟨ascii "Term", UintForm req.term.toNat, fun s => { s with term := req.term }⟩,
  ⟨ascii "Leader", OptForm req.leader, fun s => { s with leader := req.leader }⟩,
  ⟨ascii "LastLogIndex", UintForm req.lastLogIndex.toNat,
    fun s => { s with lastLogIndex := req.lastLogIndex }⟩,
  ⟨ascii "LastLogTerm", UintForm req.lastLogTerm.toNat,
    fun s => { s with lastLogTerm := req.lastLogTerm }⟩,
  ⟨ascii "Peers", OptForm req.peers, fun s => { s with peers := req.peers }⟩,
  ⟨ascii "Configuration", OptForm req.configuration,
    fun s => { s with configuration := req.configuration }⟩,
  ⟨ascii "ConfigurationIndex", UintForm req.configurationIndex.toNat,
    fun s => { s with configurationIndex := req.configurationIndex }⟩,
  ⟨ascii "Size", SintForm req.size.toInt, fun s => { s with size := req.size }⟩]

def timeoutNowForms (req : TimeoutNowRequest) : List (FieldForm TimeoutNowRequest) :=
  headerForms req.header fun g s => { s with header := g s.header }

/-! ## What the decoders have in common with the reader -/

namespace Reader.Closed

section

variable [Target] {C : ∀ {α : Type}, Reader α → Prop} (hC : Closed C)
variable {α σ : Type} {name : Bytes} {fields : Fields σ}

include hC

-- a table arm by arm, in its order

theorem arm {p : Reader α} (hp : C p) {put : σ → α → σ} (h : ∀ f ∈ fields, ∀ s, C (f.2 s)) :
    ∀ f ∈ (name, fun s => p >>= fun a => pure (put s a)) :: fields, ∀ s, C (f.2 s) :=
  List.forall_mem_cons.mpr ⟨fun s => hC.map hp (put s), h⟩

theorem headerArms {version : σ → Int64 → σ} {id addr : σ → Option Bytes → σ}
    (h : ∀ f ∈ fields, ∀ s, C (f.2 s)) :
    ∀ f ∈ (ascii "ProtocolVersion", fun s => Reader.readInt >>= fun v => pure (version s v)) ::
      (ascii "ID", fun s => Reader.readBytesField >>= fun v => pure (id s v)) ::
      (ascii "Addr", fun s => Reader.readBytesField >>= fun v => pure (addr s v)) :: fields,
      ∀ s, C (f.2 s) :=
  hC.arm hC.readInt <| hC.arm hC.readBytesField <| hC.arm hC.readBytesField h

end

variable {C : ∀ {α : Type}, Reader α → Prop} (hC : Closed C)

include hC

theorem decodeLog : C decodeLog :=
  hC.readMapFields (hC.arm hC.readUint <| hC.arm hC.readUint <| hC.arm hC.readUint <|
    hC.arm hC.readBytesField <| hC.arm hC.readBytesField <|
      hC.arm hC.readRaw (List.forall_mem_nil _)) _

theorem readEntries (s : AppendEntriesRequest) : C (readEntries s) := by
  have hround (entries : List Log) : C (do return entries ++ [← Web.decodeLog]) :=
    hC.map hC.decodeLog _
  exact hC.bind hC.isNil fun _ => hC.ite (hC.map hC.readNil fun _ => s) <|
    hC.bind (hC.readHeader ..) fun n => hC.map (hC.iterate hround n []) _

theorem decodeAppendEntriesRequest : C decodeAppendEntriesRequest :=
  hC.readMapFields (hC.headerArms <| hC.arm hC.readUint <| hC.arm hC.readBytesField <|
    hC.arm hC.readUint <| hC.arm hC.readUint <| hC.arm hC.readUint <|
    List.forall_mem_cons.mpr ⟨hC.readEntries, List.forall_mem_nil _⟩) _

theorem decodeRequestVoteRequest : C decodeRequestVoteRequest :=
  hC.readMapFields (hC.headerArms <| hC.arm hC.readUint <| hC.arm hC.readBytesField <|
    hC.arm hC.readUint <| hC.arm hC.readUint <| hC.arm hC.readBool (List.forall_mem_nil _)) _

theorem decodeRequestPreVoteRequest : C decodeRequestPreVoteRequest :=
  hC.readMapFields (hC.headerArms <| hC.arm hC.readUint <| hC.arm hC.readUint <|
    hC.arm hC.readUint (List.forall_mem_nil _)) _

theorem decodeInstallSnapshotRequest : C decodeInstallSnapshotRequest :=
  hC.readMapFields (hC.headerArms <| hC.arm hC.readInt <| hC.arm hC.readUint <|
    hC.arm hC.readBytesField <| hC.arm hC.readUint <| hC.arm hC.readUint <|
    hC.arm hC.readBytesField <| hC.arm hC.readBytesField <| hC.arm hC.readUint <|
    hC.arm hC.readInt (List.forall_mem_nil _)) _

theorem decodeTimeoutNowRequest : C decodeTimeoutNowRequest :=
  hC.readMapFields (hC.headerArms (List.forall_mem_nil _)) _

end Reader.Closed

/-! ## Reading them back -/

section

variable {w : Bytes}

theorem knows_headerForms [Target] {σ : Type} {fields : Fields σ} {P : σ → Prop}
    {known : List (FieldForm σ)} {on : (RpcHeader → RpcHeader) → σ → σ}
    (hversion : fields.lookup (ascii "ProtocolVersion") =
      some fun s => readInt >>= fun v => pure (on (fun h => { h with protocolVersion := v }) s))
    (hid : fields.lookup (ascii "ID") =
      some fun s => readBytesField >>= fun v => pure (on (fun h => { h with id := v }) s))
    (haddr : fields.lookup (ascii "Addr") =
      some fun s => readBytesField >>= fun v => pure (on (fun h => { h with addr := v }) s))
    (hP : ∀ g s, P s → P (on g s)) (header : RpcHeader) (h : ∀ f ∈ known, Knows fields P f) :
    ∀ f ∈ headerForms header on ++ known, Knows fields P f :=
  knows_cons gives_readInt hversion rfl (hP _) <| knows_cons gives_readBytesField hid rfl (hP _) <|
    knows_cons gives_readBytesField haddr rfl (hP _) h

theorem takes_log (log : Log) : Takes logFields (logForms log) {} := by
  have htype {w : Bytes} (hw : UintForm log.logType.toNat w) :
      Gives readUint w log.logType.toUInt64 :=
    gives_readUint (by rwa [UInt8.toNat_toUInt64])
  refine ⟨fun _ => True, trivial,
    knows_cons gives_readUint rfl rfl (fun _ => id) <|
    knows_cons gives_readUint rfl rfl (fun _ => id) <|
    knows_cons htype rfl (by simp) (fun _ => id) <|
    knows_cons gives_readBytesField rfl rfl (fun _ => id) <|
    knows_cons gives_readBytesField rfl rfl (fun _ => id) <|
    List.forall_mem_singleton.mpr
      ⟨_, rfl, fun w ⟨_, htime⟩ s _ => ⟨(gives_readRaw htime).map _, trivial⟩⟩, ?_⟩
  simp [AnyOrder, logForms]

theorem gives_decodeLog {log : Log} (h : MapForm (logForms log) w) : Gives decodeLog w log :=
  gives_readMapFields (takes_log log) rfl h

theorem gives_readEntries {entries : List Log} (h : EntriesForm entries w)
    {s : AppendEntriesRequest}
    (hs : s.entries = [] ∨ s.entries = entries) : Gives (readEntries s) w { s with entries } := by
  rw [readEntries, isNil, bind_assoc]
  obtain ⟨rfl, rfl⟩ | ⟨items, head, rfl, hitems, hhead, rfl⟩ := h
  · have hnil : Gives readNil [0xc0] () := gives_byte_bind (.pure _)
    have hsame : { s with entries := [] } = s := by
      rw [← or_self_iff.mp hs]
    refine gives_peek_bind ?_
    rw [pure_bind, hsame]
    exact hnil.map fun _ => s
  · have hround : ∀ i ∈ items, ∀ entries, True →
        Gives (do return entries ++ [← decodeLog]) i.2 (entries ++ [i.1]) ∧ True :=
      fun i hi entries _ => ⟨(gives_decodeLog (hitems i hi)).map _, trivial⟩
    have hall := Scan.Reads.iterate (s := []) hround trivial
    have hfold : items.foldl (fun entries i => entries ++ [i.1]) [] = items.map Prod.fst := by
      rw [List.foldl_append_eq_append, List.nil_append, ← List.flatMap_def, List.map_eq_flatMap]
    rw [hfold] at hall
    have hbody := (gives_readArrayHeader hhead).bind (f := fun n => do
      let entries ← Scan.iterate (fun entries => do return entries ++ [← decodeLog]) n []
      return { s with entries }) (by rw [List.length_map]; exact hall.map _)
    obtain ⟨tag, rest, rfl, htag⟩ := hhead.head_ne_nil
    refine gives_peek_bind ?_
    rw [pure_bind, if_neg (by simpa using htag)]
    exact hbody

theorem takes_appendEntries (req : AppendEntriesRequest) :
    Takes appendEntriesFields (appendEntriesForms req) {} := by
  refine ⟨fun s => s.entries = [] ∨ s.entries = req.entries, .inl rfl,
    knows_headerForms rfl rfl rfl (by exact fun _ _ => id) _ <|
    knows_cons gives_readUint rfl rfl (fun _ => id) <|
    knows_cons gives_readBytesField rfl rfl (fun _ => id) <|
    knows_cons gives_readUint rfl rfl (fun _ => id) <|
    knows_cons gives_readUint rfl rfl (fun _ => id) <|
    knows_cons gives_readUint rfl rfl (fun _ => id) <|
    List.forall_mem_singleton.mpr ⟨readEntries, rfl, fun w hw s hs =>
      ⟨gives_readEntries hw hs, .inr rfl⟩⟩, ?_⟩
  simp [AnyOrder, appendEntriesForms, headerForms]

theorem gives_decodeAppendEntriesRequest {req : AppendEntriesRequest}
    (h : MapForm (appendEntriesForms req) w) : Gives decodeAppendEntriesRequest w req :=
  gives_readMapFields (takes_appendEntries req) rfl h

theorem takes_requestVote (req : RequestVoteRequest) :
    Takes requestVoteFields (requestVoteForms req) {} := by
  refine ⟨fun _ => True, trivial,
    knows_headerForms rfl rfl rfl (by exact fun _ _ => id) _ <|
    knows_cons gives_readUint rfl rfl (fun _ => id) <|
    knows_cons gives_readBytesField rfl rfl (fun _ => id) <|
    knows_cons gives_readUint rfl rfl (fun _ => id) <|
    knows_cons gives_readUint rfl rfl (fun _ => id) <|
    knows_cons gives_readBool rfl rfl (fun _ => id) <|
    List.forall_mem_nil _, ?_⟩
  simp [AnyOrder, requestVoteForms, headerForms]

theorem gives_decodeRequestVoteRequest {req : RequestVoteRequest}
    (h : MapForm (requestVoteForms req) w) :
    Gives decodeRequestVoteRequest w req :=
  gives_readMapFields (takes_requestVote req) rfl h

theorem takes_requestPreVote (req : RequestPreVoteRequest) :
    Takes requestPreVoteFields (requestPreVoteForms req) {} := by
  refine ⟨fun _ => True, trivial,
    knows_headerForms rfl rfl rfl (by exact fun _ _ => id) _ <|
    knows_cons gives_readUint rfl rfl (fun _ => id) <|
    knows_cons gives_readUint rfl rfl (fun _ => id) <|
    knows_cons gives_readUint rfl rfl (fun _ => id) <|
    List.forall_mem_nil _, ?_⟩
  simp [AnyOrder, requestPreVoteForms, headerForms]

theorem gives_decodeRequestPreVoteRequest {req : RequestPreVoteRequest}
    (h : MapForm (requestPreVoteForms req) w) :
    Gives decodeRequestPreVoteRequest w req :=
  gives_readMapFields (takes_requestPreVote req) rfl h

theorem takes_installSnapshot (req : InstallSnapshotRequest) :
    Takes installSnapshotFields (installSnapshotForms req) {} := by
  refine ⟨fun _ => True, trivial,
    knows_headerForms rfl rfl rfl (by exact fun _ _ => id) _ <|
    knows_cons gives_readInt rfl rfl (fun _ => id) <|
    knows_cons gives_readUint rfl rfl (fun _ => id) <|
    knows_cons gives_readBytesField rfl rfl (fun _ => id) <|
    knows_cons gives_readUint rfl rfl (fun _ => id) <|
    knows_cons gives_readUint rfl rfl (fun _ => id) <|
    knows_cons gives_readBytesField rfl rfl (fun _ => id) <|
    knows_cons gives_readBytesField rfl rfl (fun _ => id) <|
    knows_cons gives_readUint rfl rfl (fun _ => id) <|
    knows_cons gives_readInt rfl rfl (fun _ => id) <|
    List.forall_mem_nil _, ?_⟩
  simp [AnyOrder, installSnapshotForms, headerForms]

theorem gives_decodeInstallSnapshotRequest {req : InstallSnapshotRequest}
    (h : MapForm (installSnapshotForms req) w) :
    Gives decodeInstallSnapshotRequest w req :=
  gives_readMapFields (takes_installSnapshot req) rfl h

theorem takes_timeoutNow (req : TimeoutNowRequest) :
    Takes timeoutNowFields (timeoutNowForms req) {} := by
  refine ⟨fun _ => True, trivial, ?_, by simp [AnyOrder, timeoutNowForms, headerForms]⟩
  have h : ∀ f ∈ timeoutNowForms req ++ [], Knows timeoutNowFields (fun _ => True) f :=
    knows_headerForms rfl rfl rfl (by exact fun _ _ => id) _ (List.forall_mem_nil _)
  rwa [List.append_nil] at h

theorem gives_decodeTimeoutNowRequest {req : TimeoutNowRequest}
    (h : MapForm (timeoutNowForms req) w) :
    Gives decodeTimeoutNowRequest w req :=
  gives_readMapFields (takes_timeoutNow req) rfl h

end

end KvRaft.Web
