import KvRaft.Encoding.Text
import KvRaft.Kvctl.Permission
import KvRaft.Kvctl.Queue
import KvRaft.Lib.Window

/-! # What was submitted, in the order it is listed (`pkg/kvctl/dispatch.go`)

`SubmitCommand` records a request and, for the requester and the target, an index entry. Both lists
read their records in the order of the keys, and a key has the random id of the submission before
its time. -/

namespace KvRaft.Kvctl

open Bytes Logrecord Shmevent Encoding

/-! ## The index of executions -/

structure Command where
  id : Bytes
  name : Bytes
  peerID : Bytes
  spec : Bytes

def getCommand (s : Store) (id : Bytes) : Except Err Command :=
  match sessionGet s (commandKey id) with
  | .error _ => .error (.commandNotFound id)
  | .ok value =>
    match decodeCommandPayloadFull value with
    | .error e => .error (.wrap (.commandDecode id) e)
    | .ok (name, peerID, spec) => .ok ⟨id, name, peerID, spec⟩

/-- Empty where the command cannot be read. -/
def targetPeerIDForCommand (s : Store) (commandID : Bytes) : Bytes :=
  match getCommand s commandID with
  | .error _ => []
  | .ok cmd => cmd.peerID

inductive ExecutionRole
  | requester
  | target
deriving DecidableEq

structure CommandExecution where
  instanceID : Bytes
  commandID : Bytes
  requestedBy : Bytes
  targetPeerID : Bytes
  role : ExecutionRole
  requestedAt : Time
deriving DecidableEq

def execIndexRoleTarget : Bytes := ascii "t"

def executionOf (s : Store) (peerID : Bytes) (rec : Record) : CommandExecution :=
  let commandID := (rec.fields.get (ascii "command_id")).getD []
  if (rec.fields.get (ascii "role")).getD [] = execIndexRoleTarget then
    ⟨rec.unitID, commandID, rec.authorPeerID, peerID, .target, rec.timestamp⟩
  else
    ⟨rec.unitID, commandID, rec.authorPeerID, targetPeerIDForCommand s commandID, .requester,
      rec.timestamp⟩

def maxExecutionsByPeer : Nat := 200

def addExecution (s : Store) (peerID : Bytes) (window : List CommandExecution)
    (kv : Bytes × Bytes) :
    Except Err (List CommandExecution) :=
  match decode kv.2 with
  | .error e => .error (.wrap .listExecutionsDecode e)
  | .ok rec =>
    let window := window ++ [executionOf s peerID rec]
    .ok (if window.length > maxExecutionsByPeer then window.tail else window)

def listExecutionsByPeer (s : Store) (peerID : Bytes) : Except Err (List CommandExecution) :=
  if peerID = [] then .error .listExecutionsNoPeer
  else
    let (lo, hi) := kindPrefixBounds (commandExecIndexKind peerID)
    (scanLoop s hi (addExecution s peerID) lo []).map List.reverse

/-! ## Submissions -/

def newInstanceID (random : Bytes) : Bytes := Text.hexEncode random

/-- One record that `appendRecord` wrote. A log key has no other writer at that moment. -/
structure Appends (s : Store) (kind unitID : Bytes) (e : LogEntry) (s' : Store) : Prop where
  writes : ∃ key, buildKey kind unitID e.ts.toInt e.rnd = .ok key ∧ s'.get key = some e.value ∧
    ∀ key', key'.head? = some logKeyPrefix → key' ≠ key → s'.get key' = s.get key'
  unit : e.record.unitID = unitID
  time : e.record.timestamp.unixNano = e.ts.toInt

/-- A submission, with the three records it may write. -/
structure Submission where
  commandID : Bytes
  requester : Bytes
  target : Bytes
  random : Bytes
  request : LogEntry
  asRequester : LogEntry
  asTarget : LogEntry
  random_length : random.length = 16

/-- What `SubmitCommand` writes once the requester is permitted. The target has an entry
of its own. -/
def Submits (s : Store) (sub : Submission) (s' : Store) : Prop :=
  ∃ s₁ s₂,
    Appends s (commandRequestLogKind sub.commandID) (newInstanceID sub.random) sub.request s₁ ∧
    Appends s₁ (commandExecIndexKind sub.requester) (newInstanceID sub.random) sub.asRequester s₂ ∧
    if sub.target = sub.requester then s' = s₂
    else Appends s₂ (commandExecIndexKind sub.target) (newInstanceID sub.random) sub.asTarget s'

/-- The keys of requests and index entries. -/
def IsDispatchKey (key : Bytes) : Prop :=
  ∃ id, kindPrefix (commandRequestLogKind id) <+: key ∨ kindPrefix (commandExecIndexKind id) <+: key

/-- A store whose requests and index entries were written by submissions, each not before the last,
at `t`. -/
inductive History : Store → Int → Prop
  | start {s : Store} (h : ∀ key, IsDispatchKey key → s.get key = none) : History s 0
  | submit {s s' : Store} {t : Int} {sub : Submission} (h : History s t) (hsub : Submits s sub s')
      (hrequest : t ≤ sub.request.ts.toInt)
      (hrequester : sub.request.ts.toInt ≤ sub.asRequester.ts.toInt)
      (htarget : sub.asRequester.ts.toInt ≤ sub.asTarget.ts.toInt) :
        History s' sub.asTarget.ts.toInt
  | others {s s' : Store} {t : Int} (h : History s t)
      (hkeep : ∀ key, IsDispatchKey key → s'.get key = s.get key) : History s' t

/-! ## The records of submissions -/

/-- The record of one submission. -/
structure WrittenAs (kind key value unitID : Bytes) (e : LogEntry) : Prop where
  built : buildKey kind unitID e.ts.toInt e.rnd = .ok key
  value : e.value = value
  unit_length : unitID.length = 32
  unit : e.record.unitID = unitID
  time : e.record.timestamp.unixNano = e.ts.toInt
  epoch : 0 ≤ e.ts.toInt

theorem length_newInstanceID {random : Bytes} (h : random.length = 16) :
    (newInstanceID random).length = 32 := by
  have : ∀ b : Bytes, (Text.hexEncode b).length = 2 * b.length := by
    intro b
    unfold Text.hexEncode
    induction b with
    | nil => rfl
    | cons c b ih =>
      rw [List.flatMap_cons, List.length_append, ih, List.length_cons]
      simp only [List.length_cons, List.length_nil]
      omega
  rw [newInstanceID, this, h]

variable {key unitID : Bytes} {e : LogEntry}

theorem head_of_isDispatchKey (h : IsDispatchKey key) : key.head? = some logKeyPrefix := by
  obtain ⟨id, ⟨x, rfl⟩ | ⟨x, rfl⟩⟩ := h <;> rfl

/-- Every request and index entry is the record of a submission. -/
def AllWritten (s : Store) : Prop :=
  ∀ key value, IsDispatchKey key → s.get key = some value →
    ∃ kind unitID e, WrittenAs kind key value unitID e

theorem Appends.allWritten {s s' : Store} {kind : Bytes}
    (h : Appends s kind unitID e s') (hunit : unitID.length = 32) (hepoch : 0 ≤ e.ts.toInt)
    (hs : AllWritten s) : AllWritten s' := by
  intro key value hkey hget
  obtain ⟨key₁, hbuilt, hnew, hkeep⟩ := h.writes
  by_cases heq : key = key₁
  · subst heq
    rw [hnew] at hget
    cases hget
    exact ⟨kind, unitID, e, hbuilt, rfl, hunit, h.unit, h.time, hepoch⟩
  · rw [hkeep key (head_of_isDispatchKey hkey) heq] at hget
    exact hs key value hkey hget

theorem History.allWritten {s : Store} {t : Int} (h : History s t) : 0 ≤ t ∧ AllWritten s := by
  induction h with
  | start h =>
    refine ⟨le_rfl, fun key value hkey hget => ?_⟩
    rw [h key hkey] at hget
    cases hget
  | @submit s s' t sub _ hsub hrequest hrequester htarget ih =>
    obtain ⟨ht, hs⟩ := ih
    obtain ⟨s₁, s₂, h₁, h₂, h₃⟩ := hsub
    have hunit := length_newInstanceID sub.random_length
    have hs₂ := h₂.allWritten hunit (by omega) (h₁.allWritten hunit (by omega) hs)
    refine ⟨by omega, ?_⟩
    split_ifs at h₃
    · exact h₃ ▸ hs₂
    · exact h₃.allWritten hunit (by omega) hs₂
  | others _ hkeep ih =>
    refine ⟨ih.1, fun key value hkey hget => ?_⟩
    rw [hkeep key hkey] at hget
    exact ih.2 key value hkey hget

theorem WrittenAs.kind_eq {kind kind' value : Bytes}
    (h : WrittenAs kind' key value unitID e) (hkind : kindPrefix kind <+: key) : kind = kind' := by
  obtain ⟨hk', hu, rfl⟩ := buildKey_eq_ok.mp h.built
  obtain ⟨x, hx⟩ := hkind
  rw [kindUnitPrefix_eq, List.append_assoc] at hx
  by_cases hk : kind.length ≤ maxFieldLen
  · exact (kindPrefix_append_inj hk hk' hx).1
  · -- a longer kind would have the same length modulo `2 ^ 16`, and be longer than the whole key
    exfalso
    have hlen := congrArg List.length hx
    simp only [kindPrefix, List.length_append, List.length_cons, length_beBytes, h.unit_length,
      e.rnd_length, randSize] at hlen
    simp only [kindPrefix, List.cons_append, List.cons.injEq, true_and, List.append_assoc] at hx
    have hnat := congrArg beNat (List.append_inj_left hx (by simp))
    rw [beNat_beBytes_mod, beNat_beBytes_mod] at hnat
    unfold maxFieldLen at hk hk'
    omega

/-- The records of one kind are those of submissions. -/
def Dispatches (s : Store) (kind : Bytes) : Prop :=
  ∀ key value, kindPrefix kind <+: key → s.get key = some value →
    ∃ unitID e, WrittenAs kind key value unitID e

theorem AllWritten.dispatches {s : Store} (h : AllWritten s) {kind : Bytes}
    (hkind : ∀ key, kindPrefix kind <+: key → IsDispatchKey key) : Dispatches s kind := by
  intro key value hkey hget
  obtain ⟨kind', unitID, e, hw⟩ := h key value (hkind key hkey) hget
  obtain rfl := hw.kind_eq hkey
  exact ⟨unitID, e, hw⟩

theorem History.dispatches {s : Store} {t : Int} (h : History s t) (id : Bytes) :
    Dispatches s (commandRequestLogKind id) ∧ Dispatches s (commandExecIndexKind id) :=
  ⟨h.allWritten.2.dispatches fun _ hkey => ⟨id, .inl hkey⟩,
    h.allWritten.2.dispatches fun _ hkey => ⟨id, .inr hkey⟩⟩

/-! ## What is listed -/

def recordsOf (s : Store) (kind : Bytes) : List Record :=
  (s.scan (Store.hasPrefix (kindPrefix kind))).filterMap fun e => (decode e.2).toOption

namespace Dispatches

variable {s : Store} {kind : Bytes} (h : Dispatches s kind)
include h

theorem scan_inKind : s.scan (inKind kind) = s.scan (Store.hasPrefix (kindPrefix kind)) := by
  refine OrdMap.scan_eq_of_iff fun key value hget => ?_
  unfold inKind kindPrefixBounds
  dsimp only
  rw [Store.inRange_padded]
  intro r hr
  obtain ⟨unitID, e, hw⟩ := h key value ⟨r, hr.symm⟩ hget
  obtain ⟨-, -, heq⟩ := buildKey_eq_ok.mp hw.built
  rw [hr, kindUnitPrefix_eq, List.append_assoc] at heq
  rw [List.append_cancel_left heq, hw.unit_length]
  simp [beBytes_two]

theorem records :
    List.Forall₂ (fun e rec => ∃ w, WrittenAs kind e.1 e.2 rec.unitID w ∧ w.record = rec)
    (s.scan (Store.hasPrefix (kindPrefix kind))) (recordsOf s kind) := by
  refine List.forall₂_filterMap fun e he => ?_
  obtain ⟨hkey, hget⟩ := OrdMap.mem_scan.mp he
  obtain ⟨unitID, w, hw⟩ := h e.1 e.2 (Store.hasPrefix_iff.mp hkey) hget
  refine ⟨w.record, ?_, w, ?_, rfl⟩
  · rw [← hw.value]
    exact w.decodes
  · rw [hw.unit]
    exact hw

theorem decodes {e : Bytes × Bytes} (he : e ∈ s.scan (Store.hasPrefix (kindPrefix kind))) :
    ∃ rec ∈ recordsOf s kind, decode e.2 = .ok rec := by
  obtain ⟨rec, hrec, w, hw, rfl⟩ := h.records.exists_right he
  exact ⟨w.record, hrec, hw.value ▸ w.decodes⟩

end Dispatches

def readExecution (s : Store) (peerID : Bytes) (kv : Bytes × Bytes) : Except Err CommandExecution :=
  ((decode kv.2).mapError (.wrap .listExecutionsDecode)).map (executionOf s peerID)

theorem addExecution_eq (s : Store) (peerID : Bytes) :
    addExecution s peerID = fun w kv =>
      (readExecution s peerID kv).map (List.pushBounded maxExecutionsByPeer w) := by
  funext w kv
  unfold addExecution readExecution
  cases decode kv.2 <;> rfl

theorem listExecutionsByPeer_eq {s : Store} {peerID : Bytes} (hp : peerID ≠ [])
    (h : Dispatches s (commandExecIndexKind peerID)) :
    listExecutionsByPeer s peerID =
      .ok (((recordsOf s (commandExecIndexKind peerID)).map (executionOf s peerID)).rtake
        maxExecutionsByPeer).reverse := by
  have hlo : (kindPrefixBounds (commandExecIndexKind peerID)).1 ≠ [] := by
    simp [kindPrefixBounds, kindPrefix]
  have hread : (s.scan (inKind (commandExecIndexKind peerID))).mapM (readExecution s peerID) =
      .ok ((recordsOf s (commandExecIndexKind peerID)).map (executionOf s peerID)) := by
    rw [h.scan_inKind, List.mapM_eq_ok, List.forall₂_map_right_iff]
    refine h.records.imp ?_
    rintro e _ ⟨w, hw, rfl⟩
    unfold readExecution
    rw [← hw.value, w.decodes]
    rfl
  unfold listExecutionsByPeer
  rw [if_neg hp]
  dsimp only
  rw [scanLoop_eq _ hlo, addExecution_eq,
    List.foldlM_map_eq (readExecution s peerID)]
  change Except.map _ (Except.map _ ((s.scan (inKind (commandExecIndexKind peerID))).mapM _)) = _
  rw [hread]
  simp only [Except.map, List.foldl_pushBounded]

/-! ## Requests -/

section Requests

variable {s : Store} {clock : Bytes → Int64} {commandID : Bytes}

def listedFor (s : Store) (clock : Bytes → Int64) (commandID id : Bytes) : Option CommandRequest :=
  (unitHistory s (fun id => (clock id).toInt) commandID id).toOption.bind RevisionHistory.request?

theorem listedFor_eq_some {id : Bytes} {r : CommandRequest} :
    listedFor s clock commandID id = some r ↔
      getCommandRequest s (clock id).toInt commandID id = .ok r := by
  have hok (hist : RevisionHistory) :
      unitHistory s (fun id => (clock id).toInt) commandID id = .ok hist ↔
      scanRevisions s (clock id).toInt (commandRequestLogKind commandID) id = .ok hist :=
        unitHistory_eq_ok
  simp only [getCommandRequest_iff_request, ← hok, listedFor]
  rcases unitHistory s (fun id => (clock id).toInt) commandID id with e | hist <;>
    simp [Except.toOption]

variable (h : Dispatches s (commandRequestLogKind commandID))
include h

theorem readUnit_records : List.Forall₂ (fun e id => readUnit e = .ok id)
    (s.scan (inKind (commandRequestLogKind commandID)))
    ((recordsOf s (commandRequestLogKind commandID)).map Record.unitID) := by
  rw [h.scan_inKind, List.forall₂_map_right_iff]
  refine h.records.imp ?_
  rintro e rec ⟨w, hw, -⟩
  exact readUnit_eq_ok.mpr ⟨_, parseKey_of_buildKey hw.built, rfl⟩

theorem mem_of_isRequestKey {now : Int} {id key value : Bytes} (hid : id.length ≤ maxFieldLen)
    (hkey : isRequestKey now commandID id key = true) (hget : s.get key = some value) :
    (key, value) ∈ s.scan (inKind (commandRequestLogKind commandID)) ∧
      readUnit (key, value) = .ok id := by
  have hunit := isPrefix_of_isRevision hkey
  have hkind := (kindPrefix_isPrefix _ _).trans hunit
  obtain ⟨unitID, w, hw⟩ := h key value hkind hget
  have hmem : (key, value) ∈ s.scan (inKind (commandRequestLogKind commandID)) := by
    rw [h.scan_inKind]
    exact OrdMap.mem_scan.mpr ⟨Store.hasPrefix_iff.mpr hkind, hget⟩
  obtain ⟨hk, hu, heq⟩ := buildKey_eq_ok.mp hw.built
  obtain ⟨x, hx⟩ := hunit
  obtain ⟨-, rfl, -⟩ := kindUnitPrefix_append_inj hk hk hid hu (hx.trans heq)
  exact ⟨hmem, readUnit_eq_ok.mpr ⟨_, parseKey_of_buildKey hw.built, rfl⟩⟩

/-- Where no two requests share an id, a request is listed exactly if the clock has
reached its time. -/
theorem listedFor_record
    (hnodup : ((recordsOf s (commandRequestLogKind commandID)).map Record.unitID).Nodup)
    {rec : Record} (hrec : rec ∈ recordsOf s (commandRequestLogKind commandID)) :
    listedFor s clock commandID rec.unitID =
      if rec.timestamp.unixNano ≤ max 0 (clock rec.unitID).toInt then some (requestOf rec)
      else none := by
  obtain ⟨⟨key, value⟩, he, w, hw, hrecord⟩ := h.records.exists_left hrec
  dsimp only at hw
  obtain ⟨hk, hu, -⟩ := buildKey_eq_ok.mp hw.built
  have htime : rec.timestamp.unixNano = w.ts.toInt := hrecord ▸ hw.time
  have hdec : decode value = .ok rec := by
    rw [← hw.value, ← hrecord]
    exact w.decodes
  have hget := (OrdMap.mem_scan.mp he).2
  rw [← h.scan_inKind] at he
  -- the key of the record is the only one of its unit
  have honly :
      ∀ key' value', isRequestKey (clock rec.unitID).toInt commandID rec.unitID key' = true →
      s.get key' = some value' → (key', value') = (key, value) := by
    intro key' value' hkey' hget'
    obtain ⟨hmem, hread⟩ := mem_of_isRequestKey h hu hkey' hget'
    refine (readUnit_records h).eq_of_nodup ?_ hnodup hmem he hread ?_
    · intro e x y hx hy
      exact Except.ok.inj (hx.symm.trans hy)
    · exact readUnit_eq_ok.mpr ⟨_, parseKey_of_buildKey hw.built, rfl⟩
  have hview : isRequestKey (clock rec.unitID).toInt commandID rec.unitID key = true ↔
      rec.timestamp.unixNano ≤ max 0 (clock rec.unitID).toInt := by
    rw [htime, ← between_scanBounds_iff hw.built w.rnd_length hw.epoch]
    simp only [isRequestKey, isRevision, Store.inRange, Bool.and_eq_true, Bool.not_eq_true',
      decide_eq_false_iff_not]
  split_ifs with hseen
  · refine listedFor_eq_some.mpr
      (getCommandRequest_eq_ok.mpr ⟨?_, key, value, rec, ?_, hget, hdec, rfl⟩)
    · intro key' value' hkey' hget'
      cases honly key' value' hkey' hget'
      exact ⟨rec, hdec⟩
    · refine latestKey_eq_some.mpr ⟨hview.mpr hseen, ⟨value, hget⟩,
        fun key' value' hkey' hget' => ?_⟩
      cases honly key' value' hkey' hget'
      exact le_rfl
  · rw [Option.eq_none_iff_forall_ne_some]
    intro r hr
    obtain ⟨-, key', value', -, hlatest, hget', -⟩ :=
      getCommandRequest_eq_ok.mp (listedFor_eq_some.mp hr)
    obtain ⟨hkey', -, -⟩ := latestKey_eq_some.mp hlatest
    cases honly key' value' hkey' hget'
    exact hseen (hview.mp hkey')

theorem listCommandRequests_eq :
    listCommandRequests s (fun id => (clock id).toInt) commandID =
      .ok ((((recordsOf s (commandRequestLogKind commandID)).map Record.unitID).foldl
        addNew []).filterMap (listedFor s clock commandID)) := by
  have hids : listUnitIDs s (commandRequestLogKind commandID) =
      .ok (((recordsOf s (commandRequestLogKind commandID)).map Record.unitID).foldl
        addNew []) := by
    rw [listUnitIDs_eq, List.mapM_eq_ok.mpr (readUnit_records h)]
    rfl
  have hhist :
      ∀ id ∈ ((recordsOf s (commandRequestLogKind commandID)).map Record.unitID).foldl addNew [],
      ∃ hist, unitHistory s (fun id => (clock id).toInt) commandID id = .ok hist := by
    intro id hid
    obtain ⟨rec, hrec, rfl⟩ :=
      List.mem_map.mp ((mem_foldl_addNew.mp hid).resolve_left (List.not_mem_nil))
    obtain ⟨e, -, w, hw, -⟩ := h.records.exists_left hrec
    obtain ⟨-, hu, -⟩ := buildKey_eq_ok.mp hw.built
    simp only [unitHistory_eq_ok, scanRevisions_ok_iff]
    intro key value hkey hget
    obtain ⟨hmem, -⟩ := mem_of_isRequestKey h hu hkey hget
    rw [h.scan_inKind] at hmem
    obtain ⟨rec', -, hdec⟩ := h.decodes hmem
    exact ⟨rec', hdec⟩
  unfold listCommandRequests
  rw [hids]
  dsimp only
  rw [collectRequests_eq, List.mapM_eq_filterMap hhist]
  change Except.ok (List.filterMap _ (List.filterMap _ _)) = _
  rw [List.filterMap_filterMap]
  rfl

end Requests

/-! ## Lists in the order of time -/

theorem nodup_foldl_addNew {l ids : List Bytes} (h : ids.Nodup) : (l.foldl addNew ids).Nodup := by
  induction l generalizing ids with
  | nil => exact h
  | cons x l ih =>
    rw [List.foldl_cons]
    refine ih ?_
    unfold addNew
    split_ifs with hx
    · exact h
    · exact List.Nodup.append h (List.nodup_singleton x) (by simpa using hx)

theorem foldl_addNew_subperm (l : List Bytes) : (l.foldl addNew []).Subperm l := by
  refine List.subperm_of_subset (nodup_foldl_addNew List.nodup_nil) fun id hid => ?_
  exact (mem_foldl_addNew.mp hid).resolve_left List.not_mem_nil

theorem foldl_addNew_of_nodup {l ids : List Bytes} (h : l.Nodup) (hids : ∀ id ∈ l, id ∉ ids) :
    l.foldl addNew ids = ids ++ l := by
  induction l generalizing ids with
  | nil => simp
  | cons x l ih =>
    obtain ⟨hx, hl⟩ := List.nodup_cons.mp h
    rw [List.foldl_cons, addNew, if_neg (hids x (List.mem_cons_self ..)), ih hl, List.append_assoc]
    · rfl
    · intro id hid hmem
      rcases List.mem_append.mp hmem with hmem | hmem
      · exact hids id (List.mem_cons_of_mem _ hid) hmem
      · rw [List.mem_singleton.mp hmem] at hid
        exact hx hid

/-- The clock has reached every request, no two share an id, and the ids are in the order
of the times. -/
structure RequestsInOrder (clock : Bytes → Int64) (recs : List Record) : Prop where
  seen : ∀ rec ∈ recs, rec.timestamp.unixNano ≤ max 0 (clock rec.unitID).toInt
  distinct : (recs.map Record.unitID).Nodup
  ordered : recs.Pairwise fun a b => a.timestamp.unixNano ≤ b.timestamp.unixNano

theorem listCommandRequests_iff {s : Store} {clock : Bytes → Int64} {commandID : Bytes}
    (h : Dispatches s (commandRequestLogKind commandID)) :
    (∃ rs, listCommandRequests s (fun id => (clock id).toInt) commandID = .ok rs ∧
        rs.Perm ((recordsOf s (commandRequestLogKind commandID)).map requestOf) ∧
        rs.Pairwise fun a b => a.requestedAt.unixNano ≤ b.requestedAt.unixNano) ↔
      RequestsInOrder clock (recordsOf s (commandRequestLogKind commandID)) := by
  have hall (hnodup : ((recordsOf s (commandRequestLogKind commandID)).map Record.unitID).Nodup)
      (hseen : ∀ rec ∈ recordsOf s (commandRequestLogKind commandID),
        rec.timestamp.unixNano ≤ max 0 (clock rec.unitID).toInt) :
      (((recordsOf s (commandRequestLogKind commandID)).map Record.unitID).foldl
        addNew []).filterMap (listedFor s clock commandID) =
          (recordsOf s (commandRequestLogKind commandID)).map requestOf := by
    rw [foldl_addNew_of_nodup hnodup (by simp), List.nil_append, List.filterMap_map,
      ← List.filterMap_eq_map]
    refine List.filterMap_congr fun rec hrec => ?_
    rw [Function.comp_apply, listedFor_record h hnodup hrec, if_pos (hseen rec hrec)]
    rfl
  rw [listCommandRequests_eq h]
  constructor
  · rintro ⟨rs, hrs, hperm, hsorted⟩
    cases hrs
    -- as many are listed as there are, so no unit has two and none is missing
    have hsub :=
      foldl_addNew_subperm ((recordsOf s (commandRequestLogKind commandID)).map Record.unitID)
    have hle := hsub.length_le
    have hfilter := List.length_filterMap_le (listedFor s clock commandID)
      (((recordsOf s (commandRequestLogKind commandID)).map Record.unitID).foldl addNew [])
    have hlen := hperm.length_eq
    rw [List.length_map] at hle hlen
    have hnodup := (hsub.perm_of_length_le (by rw [List.length_map]; omega)).nodup_iff.mp
      (nodup_foldl_addNew List.nodup_nil)
    have hsome :
        ∀ id ∈ ((recordsOf s (commandRequestLogKind commandID)).map Record.unitID).foldl addNew [],
        (listedFor s clock commandID id).isSome := List.filterMap_length_eq_length.mp (by omega)
    have hseen : ∀ rec ∈ recordsOf s (commandRequestLogKind commandID),
        rec.timestamp.unixNano ≤ max 0 (clock rec.unitID).toInt := by
      intro rec hrec
      have hlisted := hsome rec.unitID (mem_foldl_addNew.mpr (.inr (List.mem_map_of_mem hrec)))
      rw [listedFor_record h hnodup hrec] at hlisted
      by_contra hnot
      rw [if_neg hnot] at hlisted
      cases hlisted
    rw [hall hnodup hseen, List.pairwise_map] at hsorted
    exact ⟨hseen, hnodup, hsorted⟩
  · rintro ⟨hseen, hnodup, hsorted⟩
    refine ⟨_, rfl, ?_, ?_⟩
    · rw [hall hnodup hseen]
    · rw [hall hnodup hseen, List.pairwise_map]
      exact hsorted

/-- In a store of submissions the executions of a peer are its most recent ones, the latest first,
exactly if the last index entries by id are in the order of their times and after all others; and
the requests of a command are all listed, the oldest first, exactly if the clock has reached them
and their ids are distinct and in the order of their times. -/
theorem history_in_order_iff {s : Store} {t : Int} (h : History s t) (peerID commandID : Bytes)
    (clock : Bytes → Int64) :
    ((∃ execs, listExecutionsByPeer s peerID = .ok execs ∧
        List.IsTop maxExecutionsByPeer (fun e => e.requestedAt.unixNano)
          ((recordsOf s (commandExecIndexKind peerID)).map (executionOf s peerID)) execs) ↔
      peerID ≠ [] ∧ List.EndsInOrder maxExecutionsByPeer (fun rec => rec.timestamp.unixNano)
        (recordsOf s (commandExecIndexKind peerID))) ∧
    ((∃ rs, listCommandRequests s (fun id => (clock id).toInt) commandID = .ok rs ∧
        rs.Perm ((recordsOf s (commandRequestLogKind commandID)).map requestOf) ∧
        rs.Pairwise fun a b => a.requestedAt.unixNano ≤ b.requestedAt.unixNano) ↔
      RequestsInOrder clock (recordsOf s (commandRequestLogKind commandID))) := by
  refine ⟨?_, listCommandRequests_iff (h.dispatches commandID).1⟩
  by_cases hp : peerID = []
  · constructor
    · rintro ⟨execs, hok, -⟩
      rw [listExecutionsByPeer, if_pos hp] at hok
      cases hok
    · rintro ⟨hne, -⟩
      exact absurd hp hne
  · have htime : ∀ rec, (executionOf s peerID rec).requestedAt = rec.timestamp := by
      intro rec
      unfold executionOf
      dsimp only
      split_ifs <;> rfl
    have hmap := List.endsInOrder_map (n := maxExecutionsByPeer)
      (f := fun e : CommandExecution => e.requestedAt.unixNano) (g := executionOf s peerID)
      (l := recordsOf s (commandExecIndexKind peerID))
    simp only [htime] at hmap
    rw [listExecutionsByPeer_eq hp (h.dispatches peerID).2, ← hmap, ← List.isTop_reverse_rtake]
    simp only [Except.ok.injEq, exists_eq_left', ne_eq, hp, not_false_eq_true, true_and]

/-! ## Two submissions -/

theorem appends_set {s : Store} {kind : Bytes}
    (hkey : buildKey kind unitID e.ts.toInt e.rnd = .ok key) (hunit : e.record.unitID = unitID)
    (htime : e.record.timestamp.unixNano = e.ts.toInt) :
    Appends s kind unitID e (s.set key e.value) where
  writes := by
    refine ⟨key, hkey, OrdMap.get_insert_self .., fun key' _ hne => ?_⟩
    rw [Store.set, OrdMap.get_insert, if_neg hne]
  unit := hunit
  time := htime

def submittedBody (kind : Bytes) (id : Bytes) (nano fields : String) : Bytes :=
  ascii "\x7b\"kind\":\"" ++ (kind ++ (ascii "\",\"unit_id\":\"" ++ (id ++
    (ascii "\",\"timestamp\":\"1970-01-01T00:00:00." ++ (ascii nano ++
      (ascii "Z\",\"author_peer_id\":\"p\",\"fields\":\x7b\"command_id\":\"c\"" ++ (ascii fields ++
        ascii "\x7d\x7d")))))))

def requestKind : Bytes := commandRequestLogKind (ascii "c")
def indexKind : Bytes := commandExecIndexKind (ascii "p")

def requestRecord (id : Bytes) (nano : Int) : Record :=
  ⟨requestKind, id, ⟨nano, 0⟩, ascii "p", OrdMap.empty.insert (ascii "command_id") (ascii "c"), []⟩

def indexRecord (id : Bytes) (nano : Int) : Record :=
  ⟨indexKind, id, ⟨nano, 0⟩, ascii "p",
    (OrdMap.empty.insert (ascii "command_id") (ascii "c")).insert (ascii "role") (ascii "r"), []⟩

def drawn (high : Bool) : Bytes := List.replicate 16 (if high then 0xFF else 0x00)

/-- The first submission is at 1 ns, the second at 2 ns. -/
def nanoOf (late : Bool) : Int64 := if late then 2 else 1

def requestBody (high late : Bool) : Bytes :=
  submittedBody requestKind (newInstanceID (drawn high))
    (if late then "000000002" else "000000001") ""

def indexBody (high late : Bool) : Bytes :=
  submittedBody indexKind (newInstanceID (drawn high)) (if late then "000000002" else "000000001")
    ",\"role\":\"r\""

theorem decode_submittedBody : ∀ high late : Bool,
    decode (requestBody high late) =
      .ok (requestRecord (newInstanceID (drawn high)) (nanoOf late).toInt) ∧
      decode (indexBody high late) =
        .ok (indexRecord (newInstanceID (drawn high)) (nanoOf late).toInt) := by
  decide +kernel

def submittedRequest (high late : Bool) : LogEntry :=
  ⟨nanoOf late, List.replicate randSize 0, _, _, length_zeros, (decode_submittedBody high late).1⟩

def submittedIndex (high late : Bool) : LogEntry :=
  ⟨nanoOf late, List.replicate randSize 0, _, _, length_zeros, (decode_submittedBody high late).2⟩

/-- `p` submits `c`, which runs on `p`, and draws a high or a low id. -/
def submissionOf (high late : Bool) : Submission :=
  ⟨ascii "c", ascii "p", ascii "p", drawn high, submittedRequest high late,
    submittedIndex high late, submittedIndex high late, List.length_replicate⟩

def recordKey (kind : Bytes) (high late : Bool) : Bytes :=
  kindUnitPrefix kind (newInstanceID (drawn high)) ++
    (beBytes 8 (nanoOf late).toInt.toNat ++ List.replicate randSize 0)

theorem buildKey_recordKey : ∀ high late : Bool,
    buildKey requestKind (newInstanceID (drawn high)) (nanoOf late).toInt
      (List.replicate randSize 0) = .ok (recordKey requestKind high late) ∧
      buildKey indexKind (newInstanceID (drawn high)) (nanoOf late).toInt
        (List.replicate randSize 0) = .ok (recordKey indexKind high late) := by
  decide +kernel

def submitted (s : Store) (high late : Bool) : Store :=
  (s.set (recordKey requestKind high late) (requestBody high late)).set
    (recordKey indexKind high late)
    (indexBody high late)

theorem submits_submitted (s : Store) (high late : Bool) :
    Submits s (submissionOf high late) (submitted s high late) := by
  obtain ⟨hrequest, hindex⟩ := buildKey_recordKey high late
  exact ⟨_, _, appends_set (e := submittedRequest high late) hrequest rfl rfl,
    appends_set (e := submittedIndex high late) hindex rfl rfl, rfl⟩

/-- Two submissions, the first of which draws this id. -/
def bothStore (high : Bool) : Store := submitted (submitted OrdMap.empty high false) (!high) true

theorem history_bothStore (high : Bool) : History (bothStore high) 2 := by
  have hfirst : History (submitted OrdMap.empty high false) 1 :=
    .submit (.start fun key _ => OrdMap.get_empty key) (submits_submitted _ high false)
      (show 0 ≤ (nanoOf false).toInt by decide) le_rfl le_rfl
  exact .submit hfirst (submits_submitted _ (!high) true) (show 1 ≤ (nanoOf true).toInt by
    decide) le_rfl le_rfl

theorem recordsOf_bothStore :
    recordsOf (bothStore false) indexKind =
        [indexRecord (newInstanceID (drawn false)) 1, indexRecord (newInstanceID (drawn true)) 2] ∧
      recordsOf (bothStore false) requestKind =
        [requestRecord (newInstanceID (drawn false)) 1,
          requestRecord (newInstanceID (drawn true)) 2] := by
  decide +kernel

/-- The second submission draws the higher id. -/
theorem history_in_order_both :
    History (bothStore false) 2 ∧
      (∃ execs, listExecutionsByPeer (bothStore false) (ascii "p") = .ok execs ∧ execs.length = 2 ∧
        execs.Pairwise fun a b => b.requestedAt.unixNano ≤ a.requestedAt.unixNano) ∧
      ∃ rs,
        listCommandRequests (bothStore false) (fun _ => (10 : Int64).toInt) (ascii "c") = .ok rs ∧
        rs.length = 2 ∧ rs.Pairwise fun a b => a.requestedAt.unixNano ≤ b.requestedAt.unixNano := by
  obtain ⟨hexecs, hrequests⟩ :=
    history_in_order_iff (history_bothStore false) (ascii "p") (ascii "c") fun _ => 10
  obtain ⟨hindex, hrequest⟩ := recordsOf_bothStore
  unfold indexKind at hindex
  unfold requestKind at hrequest
  rw [hindex] at hexecs
  rw [hrequest] at hrequests
  refine ⟨history_bothStore false, ?_, ?_⟩
  · obtain ⟨execs, hok, rest, -, hlen, hsorted, -⟩ := hexecs.mpr ⟨by decide, by decide⟩
    exact ⟨execs, hok, hlen, hsorted⟩
  · obtain ⟨rs, hok, hperm, hsorted⟩ := hrequests.mpr ⟨by decide, by decide, by decide⟩
    exact ⟨rs, hok, hperm.length_eq, hsorted⟩

/-- The second submission draws the lower id. The executions come the older one first, and the
requests the newer one first. -/
theorem history_out_of_order :
    History (bothStore true) 2 ∧
      (∃ execs, listExecutionsByPeer (bothStore true) (ascii "p") = .ok execs ∧
        execs.map (fun e => e.requestedAt.unixNano) = [1, 2] ∧
        ¬List.IsTop maxExecutionsByPeer (fun e => e.requestedAt.unixNano)
          ((recordsOf (bothStore true) (commandExecIndexKind (ascii "p"))).map
            (executionOf (bothStore true) (ascii "p")))
          execs) ∧
      ∃ rs,
        listCommandRequests (bothStore true) (fun _ => (10 : Int64).toInt) (ascii "c") = .ok rs ∧
        rs.map (fun r => r.requestedAt.unixNano) = [2, 1] ∧
        ¬rs.Pairwise fun a b => a.requestedAt.unixNano ≤ b.requestedAt.unixNano := by
  refine ⟨history_bothStore true, ?_, ?_⟩
  · have hok : listExecutionsByPeer (bothStore true) (ascii "p") =
        .ok [⟨newInstanceID (drawn true), ascii "c", ascii "p", [], .requester, ⟨1, 0⟩⟩,
          ⟨newInstanceID (drawn false), ascii "c", ascii "p", [], .requester, ⟨2, 0⟩⟩] := by
            decide +kernel
    refine ⟨_, hok, rfl, ?_⟩
    rintro ⟨rest, -, -, hsorted, -⟩
    revert hsorted
    decide
  · have hok : listCommandRequests (bothStore true) (fun _ => (10 : Int64).toInt) (ascii "c") =
        .ok [⟨newInstanceID (drawn false), ascii "c", ascii "p", [], ⟨2, 0⟩⟩,
          ⟨newInstanceID (drawn true), ascii "c", ascii "p", [], ⟨1, 0⟩⟩] := by
      decide +kernel
    exact ⟨_, hok, rfl, by decide⟩

end KvRaft.Kvctl
