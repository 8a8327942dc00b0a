import KvRaft.Daemon.Append
import KvRaft.Kvctl.Dispatch
import KvRaft.Lib.Reach

/-! # Whether a recorded request stays

`GetCommandRequest` returns the latest revision of a request. Every accepted `logAppend` under a key
of the same command and unit is another revision, whoever sent it. -/

namespace KvRaft.Kvctl

open Bytes Logrecord Shmevent Kvfsm Daemon

/-! ## The client's call -/

/-- The daemon's answer to a range call is what `listRange` reads in its store, as long as the entry
fits into a message. -/
theorem listRange_answer {n : Node} {start stop : Data}
    (hfit : ∀ e ∈ n.store.scanRange start.1 stop.1 1, e.1.length < 2 ^ 29 ∧ e.2.length < 2 ^ 29)
    (env : Env) (caller : CallerIdentity) (id : UInt16) :
    ∃ key value : Data,
      (dispatch env caller id (.listRange start stop ⟨[], by decide⟩ ⟨[], by decide⟩)).outcome n =
          .ok (.listRange start stop key value) ∧
        listRange n.store start.1 stop.1 = if key.1 = [] then none else some (key.1, value.1) := by
  change ∃ key value : Data, (Daemon.listRange start stop _ _).outcome n = _ ∧ _
  rw [Daemon.listRange, EStateM.outcome_get_bind, listRange]
  rcases hscan : n.store.scanRange start.1 stop.1 1 with _ | ⟨⟨k, v⟩, rest⟩
  · exact ⟨_, _, rfl, rfl⟩
  obtain ⟨hk, hv⟩ := hfit (k, v) (hscan ▸ List.mem_cons_self ..)
  refine ⟨⟨k, hk⟩, ⟨v, hv⟩, ?_, rfl⟩
  have hset {b : Bytes} (hb : b.length < 2 ^ 29) : setData b = pure ⟨b, hb⟩ := by
    unfold setData Data.ofBytes
    rw [dif_pos hb]
  dsimp only
  rw [hset hk, hset hv]
  rfl

/-! ## The revisions in sight -/

def revisionAt (s : Store) (now : Int) (commandID instanceID key : Bytes) : Option Bytes :=
  if isRequestKey now commandID instanceID key then s.get key else none

/-- The revision `value` under `key` does not change the answer `r`: it decodes, and it says the
same or a later one is there. -/
def Defers (s : Store) (now : Int) (commandID instanceID : Bytes) (r : CommandRequest)
    (key value : Bytes) : Prop :=
  ∃ rec, decode value = .ok rec ∧
    (requestOf rec = r ∨
      ∃ key' value', key < key' ∧ revisionAt s now commandID instanceID key' = some value')

theorem head_of_isRequestKey {now : Int} {commandID instanceID key : Bytes}
    (h : isRequestKey now commandID instanceID key = true) : key.head? = some logKeyPrefix := by
  simp only [isRequestKey, isRevision, Store.inRange, Bool.and_eq_true, Bool.not_eq_true',
    decide_eq_false_iff_not] at h
  obtain ⟨rest, rfl⟩ :=
    List.isPrefix_of_between (List.prefix_append ..) (List.prefix_append ..) h.1 h.2
  rfl

section Answer

variable {s s' : Store} {now now' : Int} {commandID instanceID : Bytes} {r : CommandRequest}

theorem revisionAt_eq_some {key value : Bytes} :
    revisionAt s now commandID instanceID key = some value ↔
      isRequestKey now commandID instanceID key = true ∧ s.get key = some value := by
  unfold revisionAt
  split_ifs with h <;> simp [h]

theorem exists_latestKey {key value : Bytes}
    (h : revisionAt s now commandID instanceID key = some value) :
    ∃ latest, latestKey s now commandID instanceID = some latest := by
  have hmem : (key, value) ∈ s.scan (isRequestKey now commandID instanceID) :=
    OrdMap.mem_scan.mpr (revisionAt_eq_some.mp h)
  rw [latestKey, List.getLast?_eq_some_getLast (List.ne_nil_of_mem hmem)]
  exact ⟨_, rfl⟩

theorem getCommandRequest_iff_latest :
    getCommandRequest s now commandID instanceID = .ok r ↔
      (∀ key value, revisionAt s now commandID instanceID key = some value →
        ∃ rec, decode value = .ok rec) ∧
      ∃ latest value rec, revisionAt s now commandID instanceID latest = some value ∧
        (∀ key' value', revisionAt s now commandID instanceID key' = some value' → key' ≤ latest) ∧
        decode value = .ok rec ∧ requestOf rec = r := by
  simp only [getCommandRequest_eq_ok, latestKey_eq_some, revisionAt_eq_some]
  grind

/-- Where some revisions are new and the others are as before, the answer stays exactly if each new
one defers to it. -/
theorem getCommandRequest_iff_defers {new : Bytes → Prop}
    (hold : ∀ key, ¬new key → revisionAt s' now' commandID instanceID key =
      revisionAt s now commandID instanceID key)
    (hnew : ∀ key, new key → ∃ value, revisionAt s' now' commandID instanceID key = some value)
    (hget : getCommandRequest s now commandID instanceID = .ok r) :
    getCommandRequest s' now' commandID instanceID = .ok r ↔
      ∀ key value, new key → revisionAt s' now' commandID instanceID key = some value →
        Defers s' now' commandID instanceID r key value := by
  constructor
  · intro hget' key value _ hkey
    obtain ⟨hall, latest, value', rec', hlatest, hmax, hdec', hr⟩ :=
      getCommandRequest_iff_latest.mp hget'
    obtain ⟨rec, hdec⟩ := hall key value hkey
    refine ⟨rec, hdec, ?_⟩
    rcases (hmax key value hkey).lt_or_eq with hlt | rfl
    · exact .inr ⟨latest, value', hlt, hlatest⟩
    · rw [hlatest] at hkey
      cases hkey
      rw [hdec'] at hdec
      cases hdec
      exact .inl hr
  · intro hdefers
    obtain ⟨hall, latest, value, rec, hlatest, hmax, hdec, hr⟩ :=
      getCommandRequest_iff_latest.mp hget
    have hstill : ∃ value', revisionAt s' now' commandID instanceID latest = some value' := by
      by_cases h : new latest
      · exact hnew latest h
      · exact ⟨value, (hold latest h).trans hlatest⟩
    obtain ⟨value', hlatest'⟩ := hstill
    obtain ⟨top, htop⟩ := exists_latestKey hlatest'
    obtain ⟨hkey, ⟨v, hv⟩, htopmax⟩ := latestKey_eq_some.mp htop
    have htopmax' : ∀ key' value', revisionAt s' now' commandID instanceID key' = some value' →
        key' ≤ top := fun key' value' h =>
      htopmax key' value' (revisionAt_eq_some.mp h).1 (revisionAt_eq_some.mp h).2
    have hv : revisionAt s' now' commandID instanceID top = some v :=
      revisionAt_eq_some.mpr ⟨hkey, hv⟩
    refine getCommandRequest_iff_latest.mpr ⟨?_, ?_⟩
    · intro key value hkey
      by_cases h : new key
      · obtain ⟨rec, hdec, -⟩ := hdefers key value h hkey
        exact ⟨rec, hdec⟩
      · exact hall key value ((hold key h).symm.trans hkey)
    · by_cases h : new top
      · obtain ⟨rec, hdec, hr | ⟨key', value', hlt, hkey'⟩⟩ := hdefers top v h hv
        · exact ⟨top, v, rec, hv, htopmax', hdec, hr⟩
        · exact absurd (htopmax' key' value' hkey') hlt.not_ge
      · -- an old revision on top is the one that was on top
        have hv' := (hold top h).symm.trans hv
        obtain rfl : top = latest := le_antisymm (hmax top v hv') (htopmax' latest value' hlatest')
        rw [hlatest] at hv'
        cases hv'
        exact ⟨top, value, rec, hv, htopmax', hdec, hr⟩

end Answer

/-! ## Runs -/

/-- The leader, and the time on the clock of a client. -/
structure Moment where
  node : Node
  now : Int

/-- What happens between two readings: time goes on, or the leader serves a message. -/
inductive Event
  | tick (now : Int)
  | serve (m : Submission)

namespace Moment

def next (w : Moment) : Event → Moment
  | .tick now => { w with now }
  | .serve m => { w with node := m.serve.final w.node }

def after (w : Moment) (es : List Event) : Moment := es.foldl next w

def read (w : Moment) (commandID instanceID : Bytes) : Except Err CommandRequest :=
  getCommandRequest w.node.store w.now commandID instanceID

/-- The clock, in nanoseconds as a signed 64-bit number, does not run backwards; and the message is
accepted. -/
def Allows (w : Moment) : Event → Prop
  | .tick now => w.now ≤ now ∧ now < 2 ^ 63
  | .serve m => m.serve.outcome w.node = .ok ()

/-- What comes into sight defers to `r`: stored revisions whose time has come, or the record of the
message. -/
def Leaves (w : Moment) (commandID instanceID : Bytes) (r : CommandRequest) : Event → Prop
  | .tick now => ∀ key value, isRequestKey w.now commandID instanceID key = false →
      revisionAt w.node.store now commandID instanceID key = some value →
        Defers w.node.store now commandID instanceID r key value
  | .serve m => isRequestKey w.now commandID instanceID m.key.1 = true →
      Defers w.node.store w.now commandID instanceID r m.key.1 m.value.1

theorem after_take_succ (w : Moment) {es : List Event} {i : Nat} (hi : i < es.length) :
    w.after (es.take (i + 1)) = (w.after (es.take i)).next es[i] := List.foldl_take_succ _ _ hi

theorem isLeader_next {w : Moment} (hlead : w.node.isLeader = true) {e : Event} (h : w.Allows e) :
    (w.next e).node.isLeader = true := by
  cases e with
  | tick now => exact hlead
  | serve m =>
    obtain ⟨s', hfinal, -⟩ := accepted_effect hlead h
    show (m.serve.final w.node).isLeader = true
    rw [hfinal]
    exact hlead

section Step

variable {w : Moment} {commandID instanceID : Bytes} {r : CommandRequest}
  (hread : w.read commandID instanceID = .ok r)
include hread

theorem read_tick_iff {now : Int} (h : w.Allows (.tick now)) :
    (w.next (.tick now)).read commandID instanceID = .ok r ↔
      w.Leaves commandID instanceID r (.tick now) := by
  have hmono {key : Bytes} (hkey : isRequestKey w.now commandID instanceID key = true) :
      isRequestKey now commandID instanceID key = true := isRevision_mono h.1 h.2 hkey
  have hold : ∀ key, ¬(isRequestKey w.now commandID instanceID key = false ∧
      ∃ value, revisionAt w.node.store now commandID instanceID key = some value) →
      revisionAt w.node.store now commandID instanceID key =
        revisionAt w.node.store w.now commandID instanceID key := by
    intro key hkey
    by_cases hin : isRequestKey w.now commandID instanceID key = true
    · rw [revisionAt, revisionAt, if_pos hin, if_pos (hmono hin)]
    · -- out of sight before, and nothing there now
      have hnone : revisionAt w.node.store now commandID instanceID key = none := by
        rw [Option.eq_none_iff_forall_ne_some]
        exact fun value hval => hkey ⟨Bool.not_eq_true _ ▸ hin, value, hval⟩
      rw [hnone, revisionAt, if_neg hin]
  refine (getCommandRequest_iff_defers hold (fun key hkey => hkey.2) hread).trans ⟨?_, ?_⟩
  · exact fun hall key value hkey hval => hall key value ⟨hkey, value, hval⟩ hval
  · exact fun hall key value hkey hval => hall key value hkey.1 hval

theorem read_serve_iff (hlead : w.node.isLeader = true) {m : Submission} (h : w.Allows (.serve m)) :
    (w.next (.serve m)).read commandID instanceID = .ok r ↔
      w.Leaves commandID instanceID r (.serve m) := by
  obtain ⟨s', hfinal, hwritten⟩ := accepted_effect hlead h
  have hother {key : Bytes} (hne : key ≠ m.key.1) :
      revisionAt s' w.now commandID instanceID key =
        revisionAt w.node.store w.now commandID instanceID key := by
    unfold revisionAt
    split_ifs with hkey
    · rw [hwritten key (head_of_isRequestKey hkey), if_neg hne]
    · rfl
  have hnew (hkey : isRequestKey w.now commandID instanceID m.key.1 = true) :
      revisionAt s' w.now commandID instanceID m.key.1 = some m.value.1 := by
    rw [revisionAt, if_pos hkey, hwritten _ (head_of_isRequestKey hkey), if_pos rfl]
  have hdefers : Defers s' w.now commandID instanceID r m.key.1 m.value.1 ↔
      Defers w.node.store w.now commandID instanceID r m.key.1 m.value.1 := by
    unfold Defers
    refine exists_congr fun rec => and_congr_right fun _ => or_congr_right ?_
    refine exists_congr fun key' => exists_congr fun value' => and_congr_right fun hlt => ?_
    rw [hother hlt.ne']
  have hold : ∀ key, ¬(key = m.key.1 ∧ isRequestKey w.now commandID instanceID key = true) →
      revisionAt s' w.now commandID instanceID key =
        revisionAt w.node.store w.now commandID instanceID key := by
    intro key hkey
    by_cases hne : key = m.key.1
    · have hout : ¬isRequestKey w.now commandID instanceID key = true := fun hin => hkey ⟨hne, hin⟩
      rw [revisionAt, revisionAt, if_neg hout, if_neg hout]
    · exact hother hne
  show getCommandRequest (m.serve.final w.node).store w.now commandID instanceID = .ok r ↔ _
  rw [hfinal]
  refine (getCommandRequest_iff_defers hold ?_ hread).trans ⟨?_, ?_⟩
  · rintro key ⟨rfl, hkey⟩
    exact ⟨_, hnew hkey⟩
  · intro hall hkey
    exact hdefers.mp (hall _ _ ⟨rfl, hkey⟩ (hnew hkey))
  · rintro hleaves key value ⟨rfl, hkey⟩ hval
    rw [hnew hkey] at hval
    cases hval
    exact hdefers.mpr (hleaves hkey)

/-- One step leaves the answer as it is exactly if what comes into sight defers to it. -/
theorem read_next_iff (hlead : w.node.isLeader = true) {e : Event} (h : w.Allows e) :
    (w.next e).read commandID instanceID = .ok r ↔ w.Leaves commandID instanceID r e := by
  cases e with
  | tick now => exact read_tick_iff hread h
  | serve m => exact read_serve_iff hread hlead h

end Step

def Run (w : Moment) (es : List Event) : Prop :=
  ∀ i (hi : i < es.length), (w.after (es.take i)).Allows es[i]

theorem Run.isLeader {w : Moment} {es : List Event} (hrun : w.Run es)
    (hlead : w.node.isLeader = true) :
      ∀ i ≤ es.length, (w.after (es.take i)).node.isLeader = true := by
  intro i
  induction i with
  | zero => exact fun _ => hlead
  | succ i ih =>
    intro hi
    rw [after_take_succ w hi]
    exact isLeader_next (ih (by omega)) (hrun i hi)

end Moment

/-- While time goes on and accepted messages are served, a request stays what it was in every
reading exactly if whatever comes into sight defers to it. -/
theorem request_immutable_iff {w : Moment} (hlead : w.node.isLeader = true) {es : List Event}
    (hrun : w.Run es) {commandID instanceID : Bytes} {r : CommandRequest}
    (hread : w.read commandID instanceID = .ok r) :
    (∀ i ≤ es.length, (w.after (es.take i)).read commandID instanceID = .ok r) ↔
    ∀ i (hi : i < es.length), (w.after (es.take i)).Leaves commandID instanceID r es[i] := by
  have step (i : Nat) (hi : i < es.length)
      (hr : (w.after (es.take i)).read commandID instanceID = .ok r) :
      (w.after (es.take (i + 1))).read commandID instanceID = .ok r ↔
        (w.after (es.take i)).Leaves commandID instanceID r es[i] := by
    rw [Moment.after_take_succ w hi]
    exact Moment.read_next_iff hr (hrun.isLeader hlead i hi.le) (hrun i hi)
  constructor
  · intro h i hi
    exact (step i hi (h i hi.le)).mp (h (i + 1) hi)
  · intro h i
    induction i with
    | zero => exact fun _ => hread
    | succ i ih =>
      intro hi
      exact (step i hi (ih (by omega))).mpr (h i hi)

def submission (author : Bytes) (key value : Data) : Submission where
  env := {}
  route := .direct 7 0 [] ⟨[], some author⟩
  key := key
  value := value

/-- A leader with the request of `bob` for the command `c`, which everybody may request. -/
def recordedNode : Node := Node.alone (ascii "l") (publicCommand.insert requestKey bobsBody)

def laterKey (instanceID : UInt8) : Bytes :=
  kindUnitPrefix (commandRequestLogKind (ascii "c")) [instanceID] ++ beBytes 8 2

def evesBody : Bytes :=
  ascii
    "\x7b\"unit_id\":\"i\",\"author_peer_id\":\"eve\",\"fields\":\x7b\"command_id\":\"c\"\x7d\x7d"

def otherUnit : Submission :=
  submission (ascii "eve") ⟨laterKey 0x6A, by decide⟩ ⟨evesBody, by decide⟩

/-- `bob`'s request stays while `eve`'s is recorded in the other unit and time goes on. -/
theorem request_immutable_other :
    (Moment.after ⟨recordedNode, 5⟩ [.serve otherUnit, .tick 6]).read (ascii "c") (ascii "i") =
      .ok bobsRequest := by
  have hread : Moment.read ⟨recordedNode, 5⟩ (ascii "c") (ascii "i") = .ok bobsRequest := by
    decide +kernel
  have hrun : Moment.Run ⟨recordedNode, 5⟩ [.serve otherUnit, .tick 6] := by
    intro i hi
    match i with
    | 0 =>
      show otherUnit.serve.outcome recordedNode = .ok ()
      decide +kernel
    | 1 => exact ⟨by decide, by decide⟩
  refine (request_immutable_iff rfl hrun hread).mpr ?_ 2 le_rfl
  intro i hi
  match i with
  | 0 => exact fun hkey => absurd hkey (by decide +kernel)
  | 1 =>
    intro key value hout hval
    have hin : ∀ e ∈ (otherUnit.serve.final recordedNode).store.scan
        (isRequestKey 6 (ascii "c") (ascii "i")),
        isRequestKey 5 (ascii "c") (ascii "i") e.1 = true := by decide +kernel
    have hkey := hin (key, value) (OrdMap.mem_scan.mpr (revisionAt_eq_some.mp hval))
    rw [show isRequestKey 5 (ascii "c") (ascii "i") key = false from hout] at hkey
    cases hkey

def sameUnit : Submission :=
  submission (ascii "eve") ⟨laterKey 0x69, by decide⟩ ⟨evesBody, by decide⟩

/-- The stranger `eve` appends a record for the unit in which `bob`'s request lies, and from then on
clients read the request as one of `eve`. -/
theorem request_overwritten :
    Stranger recordedNode (ascii "eve") ∧
      Moment.read ⟨recordedNode, 5⟩ (ascii "c") (ascii "i") = .ok bobsRequest ∧
      sameUnit.serve.outcome recordedNode = .ok () ∧
      (Moment.after ⟨recordedNode, 5⟩ [.serve sameUnit]).read (ascii "c") (ascii "i") =
        .ok { bobsRequest with requestedBy := ascii "eve" } := by
  refine ⟨by decide +kernel, by decide +kernel, by decide +kernel, by decide +kernel⟩

end KvRaft.Kvctl
