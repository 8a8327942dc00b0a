import KvRaft.Kvctl.Catalog
import KvRaft.Kvfsm.Requests

/-! # Command requests as a client reads them (`pkg/kvctl/dispatch.go`)

`GetCommandRequest` and `ListCommandRequests` return what the JSON body of the latest record says.
The state machine checks the author that an `OpAppendCommandRequest` entry carries and the command
in its key; it does not look into the body. -/

namespace KvRaft.Kvctl

open Bytes Logrecord Shmevent Kvfsm

structure CommandRequest where
  instanceID : Bytes
  commandID : Bytes
  requestedBy : Bytes
  inputs : Bytes
  requestedAt : Time
deriving DecidableEq

/-- A field that is missing reads as the empty string. -/
def requestOf (rec : Record) : CommandRequest where
  instanceID := rec.unitID
  commandID := (rec.fields.get (ascii "command_id")).getD []
  requestedBy := rec.authorPeerID
  inputs := (rec.fields.get (ascii "inputs")).getD []
  requestedAt := rec.timestamp

def recordToCommandRequest (h : RevisionHistory) : CommandRequest := requestOf h.latest

def getCommandRequest (s : Store) (now : Int) (commandID instanceID : Bytes) :
    Except Err CommandRequest :=
  match scanRevisions s now (commandRequestLogKind commandID) instanceID with
  | .error e => .error (.wrap .getCommandRequest e)
  | .ok h =>
    if h.found then .ok (recordToCommandRequest h)
    else .error (.commandRequestNotFound instanceID commandID)

/-- The requests of the units, in their order. Each unit is read by the clock at its turn. -/
def collectRequests (s : Store) (clock : Bytes → Int) (commandID : Bytes) :
    List Bytes → Except Err (List CommandRequest)
  | [] => .ok []
  | id :: ids =>
    match scanRevisions s (clock id) (commandRequestLogKind commandID) id with
    | .error e => .error (.wrap .listCommandRequests e)
    | .ok h =>
      match collectRequests s clock commandID ids with
      | .error e => .error e
      | .ok requests => .ok (if h.found then recordToCommandRequest h :: requests else requests)

def listCommandRequests (s : Store) (clock : Bytes → Int) (commandID : Bytes) :
    Except Err (List CommandRequest) :=
  match listUnitIDs s (commandRequestLogKind commandID) with
  | .error e => .error (.wrap .listCommandRequests e)
  | .ok ids => collectRequests s clock commandID ids

/-! ## What is returned -/

/-- The keys under which a client finds the revisions of a request. -/
def isRequestKey (now : Int) (commandID instanceID key : Bytes) : Bool :=
  isRevision now (commandRequestLogKind commandID) instanceID key

def latestKey (s : Store) (now : Int) (commandID instanceID : Bytes) : Option Bytes :=
  (s.scan (isRequestKey now commandID instanceID)).getLast?.map (·.1)

variable {commandID instanceID key : Bytes} {now : Int} {s : Store} {r : CommandRequest}
  {clock : Bytes → Int}

theorem latestKey_eq_some :
    latestKey s now commandID instanceID = some key ↔
      isRequestKey now commandID instanceID key = true ∧ (∃ value, s.get key = some value) ∧
      ∀ key' value', isRequestKey now commandID instanceID key' = true → s.get key' = some value' →
        key' ≤ key := by
  rw [latestKey, Option.map_eq_some_iff]
  constructor
  · rintro ⟨⟨key, value⟩, h, rfl⟩
    obtain ⟨hkey, hget, hmax⟩ := OrdMap.getLast?_scan.mp h
    exact ⟨hkey, ⟨value, hget⟩, hmax⟩
  · rintro ⟨hkey, ⟨value, hget⟩, hmax⟩
    exact ⟨(key, value), OrdMap.getLast?_scan.mpr ⟨hkey, hget, hmax⟩, rfl⟩

def RevisionHistory.request? (h : RevisionHistory) : Option CommandRequest :=
  if h.found then some (recordToCommandRequest h) else none

theorem getCommandRequest_iff_request :
    getCommandRequest s now commandID instanceID = .ok r ↔
      ∃ h, scanRevisions s now (commandRequestLogKind commandID) instanceID = .ok h ∧
        h.request? = some r := by
  unfold getCommandRequest RevisionHistory.request?
  rcases scanRevisions s now (commandRequestLogKind commandID) instanceID with e | h
  · simp
  · dsimp only
    split_ifs with hf <;> simp [hf]

theorem getCommandRequest_eq_ok :
    getCommandRequest s now commandID instanceID = .ok r ↔
      (∀ key value, isRequestKey now commandID instanceID key = true → s.get key = some value →
        ∃ rec, decode value = .ok rec) ∧
      ∃ key value rec, latestKey s now commandID instanceID = some key ∧ s.get key = some value ∧
        decode value = .ok rec ∧ requestOf rec = r := by
  have hfound : getCommandRequest s now commandID instanceID = .ok r ↔
      ∃ rec, requestOf rec = r ∧
        ∃ h, scanRevisions s now (commandRequestLogKind commandID) instanceID = .ok h ∧
          h.found = true ∧ h.latest = rec := by
    rw [getCommandRequest_iff_request]
    simp only [RevisionHistory.request?, Option.ite_none_right_eq_some, Option.some.injEq]
    constructor
    · rintro ⟨h, hscan, hf, rfl⟩
      exact ⟨h.latest, rfl, h, hscan, hf, rfl⟩
    · rintro ⟨rec, rfl, h, hscan, hf, rfl⟩
      exact ⟨h, hscan, hf, rfl⟩
  rw [hfound]
  constructor
  · rintro ⟨rec, hr, hscan⟩
    obtain ⟨hall, key, value, hlast, hdec⟩ := scanRevisions_found.mp hscan
    refine ⟨hall, key, value, rec, ?_, (OrdMap.getLast?_scan.mp hlast).2.1, hdec, hr⟩
    exact Option.map_eq_some_iff.mpr ⟨(key, value), hlast, rfl⟩
  · rintro ⟨hall, key, value, rec, hlast, hget, hdec, hr⟩
    obtain ⟨hkey, -, hmax⟩ := latestKey_eq_some.mp hlast
    exact ⟨rec, hr, scanRevisions_found.mpr
      ⟨hall, key, value, OrdMap.getLast?_scan.mpr ⟨hkey, hget, hmax⟩, hdec⟩⟩

def unitHistory (s : Store) (clock : Bytes → Int) (commandID id : Bytes) :
    Except Err RevisionHistory :=
  (scanRevisions s (clock id) (commandRequestLogKind commandID) id).mapError
    (.wrap .listCommandRequests)

theorem unitHistory_eq_ok {id : Bytes} {h : RevisionHistory} :
    unitHistory s clock commandID id = .ok h ↔
      scanRevisions s (clock id) (commandRequestLogKind commandID) id = .ok h := by
  unfold unitHistory
  rcases scanRevisions s (clock id) (commandRequestLogKind commandID) id with e | h' <;>
    simp [Except.mapError]

theorem collectRequests_eq (s : Store) (clock : Bytes → Int) (commandID : Bytes) :
    ∀ ids : List Bytes, collectRequests s clock commandID ids =
      (ids.mapM (unitHistory s clock commandID)).map (List.filterMap RevisionHistory.request?)
  | [] => rfl
  | id :: ids => by
    rw [collectRequests, collectRequests_eq s clock commandID ids, List.mapM_cons, unitHistory]
    rcases scanRevisions s (clock id) (commandRequestLogKind commandID) id with e | h
    · rfl
    change _ = Except.map _ (ids.mapM (unitHistory s clock commandID) >>= fun hs => pure (h :: hs))
    generalize ids.mapM (unitHistory s clock commandID) = hs
    cases hs with
    | error e => rfl
    | ok hs =>
      change Except.ok _ = Except.ok (List.filterMap RevisionHistory.request? (h :: hs))
      by_cases hf : h.found = true <;> simp [RevisionHistory.request?, hf]

theorem mem_collectRequests {ids : List Bytes}
    {rs : List CommandRequest} (h : collectRequests s clock commandID ids = .ok rs) :
    r ∈ rs ↔ ∃ id ∈ ids, getCommandRequest s (clock id) commandID id = .ok r := by
  rw [collectRequests_eq] at h
  rcases hmap : ids.mapM (unitHistory s clock commandID) with e | hs <;> rw [hmap] at h
  · cases h
  cases h
  have hall := List.mapM_eq_ok.mp hmap
  simp only [unitHistory_eq_ok] at hall
  simp only [List.mem_filterMap, getCommandRequest_iff_request]
  constructor
  · rintro ⟨hist, hmem, hr⟩
    obtain ⟨id, hid, hscan⟩ := hall.exists_left hmem
    exact ⟨id, hid, hist, hscan, hr⟩
  · rintro ⟨id, hid, hist, hscan, hr⟩
    obtain ⟨hist', hmem, hscan'⟩ := hall.exists_right hid
    cases hscan.symm.trans hscan'
    exact ⟨hist, hmem, hr⟩

theorem mem_listCommandRequests
    {rs : List CommandRequest}
    (h : listCommandRequests s clock commandID = .ok rs) (hr : r ∈ rs) :
    ∃ id, getCommandRequest s (clock id) commandID id = .ok r := by
  unfold listCommandRequests at h
  rcases hids : listUnitIDs s (commandRequestLogKind commandID) with e | ids
  · rw [hids] at h
    cases h
  · rw [hids] at h
    obtain ⟨id, -, hget⟩ := (mem_collectRequests h).mp hr
    exact ⟨id, hget⟩

/-! ## Attribution -/

/-- An accepted request of `author` wrote `record` under `key`, and that is what lies there now. -/
def LastWrittenBy (s₀ : Store) (log : List Log) (key author record : Bytes) : Prop :=
  ∃ before l after payload, log = before ++ l :: after ∧
    decodeCommand l.data = .ok ⟨.appendCommandRequest, key, payload⟩ ∧
    decodeCommandRequestApplyPayload payload = .ok (author, record) ∧
    (apply (applyAll s₀ before) l).1.err = none ∧
    (applyAll s₀ log).get key = (apply (applyAll s₀ before) l).2.get key

/-- The request names its author, and the command and the unit in the key. -/
def Attributed (author key : Bytes) (r : CommandRequest) : Prop :=
  ∃ k commandID, parseKey key = .ok k ∧ parseCommandRequestLogKind k.kind = some commandID ∧
    r.requestedBy = author ∧ r.commandID = commandID ∧ r.instanceID = k.unitID

/-- The body names the author that the entry carries, and the command and the unit in its key. -/
def HonestBody (author key record : Bytes) : Prop :=
  ∃ k commandID rec, parseKey key = .ok k ∧ parseCommandRequestLogKind k.kind = some commandID ∧
    decode record = .ok rec ∧ rec.authorPeerID = author ∧
    (rec.fields.get (ascii "command_id")).getD [] = commandID ∧ rec.unitID = k.unitID

theorem head_of_parseKey {k : ParsedKey} (h : parseKey key = .ok k) :
    key.head? = some logKeyPrefix := by
  obtain ⟨-, -, rest, -, rfl⟩ := parseKey_ok h
  rfl

theorem get_of_lastWrittenBy {s₀ : Store} {log : List Log} {author record : Bytes}
    (h : LastWrittenBy s₀ log key author record) : (applyAll s₀ log).get key = some record := by
  obtain ⟨before, l, after, payload, -, hcmd, hpay, hok, hget⟩ := h
  rw [hget]
  simp only [apply, hcmd] at hok ⊢
  rcases applyAppendCommandRequest_inv (applyAll s₀ before) key payload with
    ⟨herr, -⟩ | ⟨-, author', record', commandID, hdec, happ⟩
  · exact absurd hok herr
  · rw [hpay] at hdec
    cases hdec
    obtain ⟨k, hk, -⟩ := happ.parsed
    rw [happ.get_logKey (head_of_parseKey hk), if_pos rfl]

theorem attributed_iff_honestBody {s₀ : Store} {log : List Log}
    (h : getCommandRequest (applyAll s₀ log) now commandID instanceID = .ok r) :
    ∃ key, latestKey (applyAll s₀ log) now commandID instanceID = some key ∧
      ∀ author record, LastWrittenBy s₀ log key author record →
        (Attributed author key r ↔ HonestBody author key record) := by
  obtain ⟨-, key, value, rec, hlast, hget, hdec, rfl⟩ := getCommandRequest_eq_ok.mp h
  refine ⟨key, hlast, fun author record hwritten => ?_⟩
  rw [get_of_lastWrittenBy hwritten] at hget
  cases hget
  constructor
  · rintro ⟨k, c, hk, hc, hauthor, hcommand, hunit⟩
    exact ⟨k, c, rec, hk, hc, hdec, hauthor, hcommand, hunit⟩
  · rintro ⟨k, c, rec', hk, hc, hdec', hauthor, hcommand, hunit⟩
    rw [hdec] at hdec'
    cases hdec'
    exact ⟨k, c, hk, hc, hauthor, hcommand, hunit⟩

/-- A request that `GetCommandRequest` or `ListCommandRequests` returns, and whose latest record an
accepted entry wrote, is attributed to the author, the command and the unit of that entry exactly if
the body of the record names them. What is listed is what `GetCommandRequest` returns for a unit at
the time at which the unit is read. -/
theorem request_attributed_iff (s₀ : Store) (log : List Log) (commandID : Bytes) :
    (∀ now instanceID r, getCommandRequest (applyAll s₀ log) now commandID instanceID = .ok r →
      ∃ key, latestKey (applyAll s₀ log) now commandID instanceID = some key ∧
        ∀ author record, LastWrittenBy s₀ log key author record →
          (Attributed author key r ↔ HonestBody author key record)) ∧
    (∀ clock rs, listCommandRequests (applyAll s₀ log) clock commandID = .ok rs → ∀ r ∈ rs,
      ∃ instanceID key,
        getCommandRequest (applyAll s₀ log) (clock instanceID) commandID instanceID = .ok r ∧
        latestKey (applyAll s₀ log) (clock instanceID) commandID instanceID = some key ∧
        ∀ author record, LastWrittenBy s₀ log key author record →
          (Attributed author key r ↔ HonestBody author key record)) := by
  refine ⟨fun now instanceID r h => attributed_iff_honestBody h, fun clock rs h r hr => ?_⟩
  obtain ⟨instanceID, hget⟩ := mem_listCommandRequests h hr
  obtain ⟨key, hkey, hiff⟩ := attributed_iff_honestBody hget
  exact ⟨instanceID, key, hget, hkey, hiff⟩

/-- The entries that make the group `g` public and put the command `c` into it. -/
def publicLog : List Log :=
  [⟨encodeCommand .set (groupKey (ascii "g")) (encodeGroupPayload (ascii "g") true), 0⟩,
   ⟨encodeCommand .set
     (systemKey kindGroupCommand catalogStatusPlaceholder ([0, 1] ++ ascii "cg")) [], 0⟩]

def requestKey : Bytes :=
  kindUnitPrefix (commandRequestLogKind (ascii "c")) (ascii "i") ++ beBytes 8 1

def bobsBody : Bytes :=
  ascii
    "\x7b\"unit_id\":\"i\",\"author_peer_id\":\"bob\",\"fields\":\x7b\"command_id\":\"c\"\x7d\x7d"

def requestLog (author : Bytes) : Log :=
  ⟨encodeCommand .appendCommandRequest requestKey
    (beBytes 2 author.length ++ (author ++ bobsBody)), 0⟩

def bobsRequest : CommandRequest := ⟨ascii "i", ascii "c", ascii "bob", [], .zero⟩

theorem lastWrittenBy_requestLog {author : Bytes} (hlen : author.length < 256 ^ 2)
    (hok : (apply (applyAll OrdMap.empty publicLog) (requestLog author)).1.err = none)
    (hcmd : decodeCommand (requestLog author).data =
      .ok ⟨.appendCommandRequest, requestKey, beBytes 2 author.length ++ (author ++ bobsBody)⟩) :
    LastWrittenBy OrdMap.empty (publicLog ++ [requestLog author]) requestKey author bobsBody := by
  refine ⟨publicLog, _, [], _, rfl, hcmd, ?_, hok, by rw [applyAll_append]; rfl⟩
  exact decodeCommandRequestApplyPayload_encode
    (by rw [encodeCommandRequestApplyPayload, if_neg]; omega)

theorem request_attributed_bob :
    getCommandRequest (applyAll OrdMap.empty (publicLog ++ [requestLog (ascii "bob")]))
      5 (ascii "c") (ascii "i") = .ok bobsRequest ∧
      Attributed (ascii "bob") requestKey bobsRequest := by
  have hget : getCommandRequest (applyAll OrdMap.empty (publicLog ++ [requestLog (ascii "bob")])) 5
      (ascii "c") (ascii "i") = .ok bobsRequest := by decide +kernel
  refine ⟨hget, ?_⟩
  obtain ⟨key, hkey, hiff⟩ := (request_attributed_iff _ _ _).1 _ _ _ hget
  have hlatest : latestKey (applyAll OrdMap.empty (publicLog ++ [requestLog (ascii "bob")])) 5
      (ascii "c") (ascii "i") = some requestKey := by decide +kernel
  obtain rfl := Option.some.inj (hlatest.symm.trans hkey)
  refine (hiff _ _
    (lastWrittenBy_requestLog (by decide) (by decide +kernel) (by decide +kernel))).mpr ?_
  refine ⟨⟨commandRequestLogKind (ascii "c"), ascii "i", 1⟩, ascii "c", ?_⟩
  obtain ⟨rec, hdec, hrec⟩ : ∃ rec, decode bobsBody = .ok rec ∧ requestOf rec = bobsRequest := by
    refine ⟨⟨[], ascii "i", .zero, ascii "bob",
      OrdMap.empty.insert (ascii "command_id") (ascii "c"), []⟩, ?_, rfl⟩
    decide +kernel
  exact ⟨rec, by decide, by decide, hdec, congrArg CommandRequest.requestedBy hrec,
    congrArg CommandRequest.commandID hrec, congrArg CommandRequest.instanceID hrec⟩

/-- The permitted peer `eve` records a request, and clients read it as one of `bob`. -/
theorem request_misattributed :
    LastWrittenBy OrdMap.empty (publicLog ++ [requestLog (ascii "eve")]) requestKey (ascii "eve")
        bobsBody ∧
      getCommandRequest (applyAll OrdMap.empty (publicLog ++ [requestLog (ascii "eve")]))
        5 (ascii "c")
        (ascii "i") = .ok bobsRequest ∧
      listCommandRequests (applyAll OrdMap.empty (publicLog ++ [requestLog (ascii "eve")]))
        (fun _ => 5) (ascii "c") = .ok [bobsRequest] ∧
      ¬Attributed (ascii "eve") requestKey bobsRequest := by
  refine ⟨lastWrittenBy_requestLog (by decide) (by decide +kernel) (by decide +kernel),
    by decide +kernel, by decide +kernel, ?_⟩
  rintro ⟨k, commandID, -, -, hauthor, -, -⟩
  exact absurd hauthor (by decide)

end KvRaft.Kvctl
