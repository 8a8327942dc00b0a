import KvRaft.Kvctl.Dispatch
import KvRaft.Logrecord.Order

/-! # The dispatcher of a command (`pkg/kvctl`: `kvctl.go`, `dispatch.go`)

A dispatcher lists the requests of its command, asks the execution log of each whether it is
finished, runs the handler where it is not, and logs the result. The log is asked up to the
dispatcher's own clock, so an entry that is later than the clock is not seen. -/

namespace KvRaft.Kvctl

open Bytes Logrecord Shmevent

/-! ## Execution logs -/

/-- One round of the loop of `LogQuery`. A limit of zero or less is none. -/
def addRecord (limit : Int) (records : Except Err (List Record)) (kv : Bytes × Bytes) :
    Except Err (List Record) × Bool :=
  match records, decode kv.2 with
  | .error e, _ => (.error e, true)
  | .ok _, .error e => (.error (.wrap .logQueryDecode e), true)
  | .ok records, .ok rec =>
    let records := records ++ [rec]
    (.ok records, decide (0 < limit ∧ limit ≤ records.length))

def logQuery (s : Store) (kind unitID : Bytes) (start stop limit : Int) :
    Except Err (List Record) :=
  let (lo, hi) := scanBounds kind unitID start stop
  OrdMap.pages (fun lo => listRange s lo hi) (fun key => key ++ [0x00]) (addRecord limit)
    (s.entries.length + 1) lo
    (.ok [])

def queryCommandLog (s : Store) (instanceID : Bytes) (start stop limit : Int) :
    Except Err (List Record) :=
  logQuery s commandExecLogKind instanceID start stop limit

def commandStatusRunning : Bytes := ascii "running"

def statusOf (rec : Record) : Bytes := (rec.fields.get (ascii "status")).getD []

/-- `now` is the dispatcher's clock. -/
def commandRequestAlreadyHandled (s : Store) (now : Int) (instanceID : Bytes) : Except Err Bool :=
  match queryCommandLog s instanceID 0 now 0 with
  | .error e => .error e
  | .ok entries =>
    match entries.getLast? with
    | none => .ok false
    | some rec => .ok (decide (statusOf rec ≠ commandStatusRunning))

/-- One entry for an execution log: the clock and the random bytes of the call, and what `Encode`
made of its fields, which `Decode` reads as `record`. -/
structure LogEntry where
  ts : Int64
  rnd : Bytes
  value : Bytes
  record : Record
  rnd_length : rnd.length = randSize
  decodes : decode value = .ok record

def LogEntry.terminal (e : LogEntry) : Bool := decide (statusOf e.record ≠ commandStatusRunning)

/-- The write of `AppendCommandLog`, which commits. -/
def appendCommandLog (s : Store) (instanceID : Bytes) (e : LogEntry) : Except Err Store :=
  if instanceID = [] then .error .instanceIDEmpty
  else
    match buildKey commandExecLogKind instanceID e.ts.toInt e.rnd with
    | .error err => .error (.wrap .logAppend err)
    | .ok key => .ok (s.set key e.value)

/-! ## Passes -/

inductive Happened
  | ran (instanceID : Bytes)
  | logged (instanceID : Bytes) (terminal : Bool)
deriving DecidableEq

structure World where
  store : Store
  history : List Happened

/-- How one request is met: the clock when its log is asked, the handler's reports, and its result.
A panic of the handler has a result as well. -/
structure Turn where
  now : Int64
  progress : List LogEntry
  result : LogEntry
  running : ∀ e ∈ progress, e.terminal = false

/-- An entry that is refused is reported, and the loop goes on. -/
def World.append (instanceID : Bytes) (w : World) (e : LogEntry) : World :=
  match appendCommandLog w.store instanceID e with
  | .error _ => w
  | .ok s => ⟨s, w.history ++ [.logged instanceID e.terminal]⟩

def World.ran (w : World) (instanceID : Bytes) : World :=
  { w with history := w.history ++ [.ran instanceID] }

def World.handle (w : World) (instanceID : Bytes) (t : Turn) : World :=
  t.progress.foldl (World.append instanceID) (w.ran instanceID)

/-- One round of the loop of `dispatchPendingCommandRequests`. -/
def World.turn (w : World) (req : CommandRequest) (t : Turn) : World :=
  match commandRequestAlreadyHandled w.store t.now.toInt req.instanceID with
  | .error _ => w
  | .ok true => w
  | .ok false => World.append req.instanceID (w.handle req.instanceID t) t.result

/-- The requests that a pass looks at. Where they cannot be listed there are none. -/
def considered (s : Store) (clock : Bytes → Int) (commandID : Bytes) : List CommandRequest :=
  match listCommandRequests s clock commandID with
  | .error _ => []
  | .ok reqs => reqs

def rounds (w : World) (turns : List (CommandRequest × Turn)) : World :=
  turns.foldl (fun w (req, t) => w.turn req t) w

/-- One pass. Where there are fewer turns than requests, the dispatcher was stopped in between. -/
def dispatchPendingCommandRequests (w : World) (clock : Bytes → Int) (commandID : Bytes)
    (turns : List Turn) : World :=
  rounds w ((considered w.store clock commandID).zip turns)

inductive Act
  | pass (clock : Bytes → Int) (turns : List Turn)
  | others (s : Store)

def World.act (commandID : Bytes) (w : World) : Act → World
  | .pass clock turns => dispatchPendingCommandRequests w clock commandID turns
  | .others s => { w with store := s }

def logPrefix (instanceID : Bytes) : Bytes := kindUnitPrefix commandExecLogKind instanceID

/-- Nobody else writes to the log of an instance that the dispatcher ran. -/
def Act.Single (w : World) : Act → Prop
  | .pass _ _ => True
  | .others s => ∀ id key, .ran id ∈ w.history → logPrefix id <+: key → s.get key = w.store.get key

/-- No handler runs for an instance after its result was logged. -/
def RunOnce (history : List Happened) : Prop :=
  history.Pairwise fun earlier later => ∀ id, earlier = .logged id true → later ≠ .ran id

/-! ## What the log says -/

def readRecord (kv : Bytes × Bytes) : Except Err Record :=
  (decode kv.2).mapError (.wrap .logQueryDecode)

theorem addRecord_eq {limit : Int} (h : limit ≤ 0) :
    addRecord limit = Except.stepUntil fun records kv => (readRecord kv).map fun rec =>
      records ++ [rec] := by
  funext records kv
  unfold addRecord Except.stepUntil readRecord
  cases records with
  | error e => rfl
  | ok records =>
    dsimp only [Except.bind]
    cases decode kv.2 with
    | error e => rfl
    | ok rec =>
      have hstop : decide (0 < limit ∧ limit ≤ (records ++ [rec]).length) = false :=
        decide_eq_false (by omega)
      exact Prod.ext rfl hstop

theorem queryCommandLog_eq (s : Store) (instanceID : Bytes) (now : Int) :
    queryCommandLog s instanceID 0 now 0 =
      (s.scan (isRevision now commandExecLogKind instanceID)).mapM readRecord := by
  have hlo : (scanBounds commandExecLogKind instanceID 0 now).1 ≠ [] := by
    simp [scanBounds, kindUnitPrefix]
  unfold queryCommandLog logQuery
  dsimp only
  rw [addRecord_eq le_rfl, ← scanLoop, scanLoop_eq _ hlo, List.foldlM_map_eq readRecord]
  change Except.map _ ((s.scan (isRevision now commandExecLogKind instanceID)).mapM readRecord) = _
  rcases (s.scan (isRevision now commandExecLogKind instanceID)).mapM readRecord with e | recs
  · rfl
  · simp [Except.map, List.foldl_append_eq_append, ← List.flatMap_def]

/-- Every entry of the log is in the range of a query at `now`. -/
def InSight (s : Store) (now : Int) (instanceID : Bytes) : Prop :=
  ∀ key value, logPrefix instanceID <+: key → s.get key = some value →
    isRevision now commandExecLogKind instanceID key = true

/-- The log's latest entry is a result. -/
def Finished (s : Store) (instanceID : Bytes) : Prop :=
  ∃ key value rec, logPrefix instanceID <+: key ∧ s.get key = some value ∧ decode value = .ok rec ∧
    statusOf rec ≠ commandStatusRunning ∧
    ∀ key' value', logPrefix instanceID <+: key' → s.get key' = some value' → key' ≤ key

variable {key commandID : Bytes} {now : Int} {s : Store}

theorem isPrefix_of_isRevision {kind unitID : Bytes}
    (h : isRevision now kind unitID key = true) : kindUnitPrefix kind unitID <+: key := by
  simp only [isRevision, Store.inRange, Bool.and_eq_true, Bool.not_eq_true',
    decide_eq_false_iff_not] at h
  exact List.isPrefix_of_between (List.prefix_append ..) (List.prefix_append ..) h.1 h.2

/-- A finished request whose log is in sight is not run. -/
theorem commandRequestAlreadyHandled_of_latest {instanceID : Bytes}
    (hfin : Finished s instanceID) (hsight : InSight s now instanceID) :
    commandRequestAlreadyHandled s now instanceID ≠ .ok false := by
  obtain ⟨key, value, rec, hkey, hget, hdec, hstatus, hmax⟩ := hfin
  have hlast :
      (s.scan (isRevision now commandExecLogKind instanceID)).getLast? = some (key, value) := by
    refine OrdMap.getLast?_scan.mpr ⟨hsight key value hkey hget, hget, ?_⟩
    intro key' value' hkey' hget'
    exact hmax key' value' (isPrefix_of_isRevision hkey') hget'
  unfold commandRequestAlreadyHandled
  rw [queryCommandLog_eq]
  rcases hread : (s.scan (isRevision now commandExecLogKind instanceID)).mapM readRecord with
    e | recs
  · exact nofun
  have hrel := (List.mapM_eq_ok.mp hread).getLast?
  rw [hlast] at hrel
  dsimp only
  generalize recs.getLast? = last at hrel ⊢
  cases hrel with
  | @some _ rec' hrec =>
    unfold readRecord at hrec
    rw [hdec] at hrec
    cases hrec
    simp [hstatus]

/-! ## What a turn does -/

/-- No entry of the log is later than `e`, entries of one nanosecond being ordered by their random
bytes. -/
def NotLater (s : Store) (instanceID : Bytes) (e : LogEntry) : Prop :=
  ∀ newKey key value, buildKey commandExecLogKind instanceID e.ts.toInt e.rnd = .ok newKey →
    logPrefix instanceID <+: key → s.get key = some value → key ≤ newKey

/-- Once a result is logged the clock is not behind the log, and a request that is run does not have
its result logged behind an entry that was there before. -/
def Turn.Timely (w : World) (req : CommandRequest) (t : Turn) : Prop :=
  (.logged req.instanceID true ∈ w.history → InSight w.store t.now.toInt req.instanceID) ∧
    (commandRequestAlreadyHandled w.store t.now.toInt req.instanceID = .ok false →
      t.result.terminal = true →
      NotLater (w.handle req.instanceID t).store req.instanceID t.result)

/-- Every result stands at the end of its log, and no handler ran after it. -/
structure Settled (w : World) : Prop where
  once : RunOnce w.history
  finished : ∀ id, .logged id true ∈ w.history →
    .ran id ∈ w.history ∧ id.length ≤ maxFieldLen ∧ Finished w.store id

theorem runOnce_snoc {history : List Happened} {x : Happened} :
    RunOnce (history ++ [x]) ↔ RunOnce history ∧ ∀ id, .logged id true ∈ history → x ≠ .ran id := by
  simp only [RunOnce, List.pairwise_append, List.pairwise_singleton, true_and, List.mem_singleton,
    forall_eq]
  refine and_congr_right fun _ => ⟨?_, ?_⟩
  · intro h id hmem
    exact h _ hmem id rfl
  · intro h earlier hmem id hid
    subst hid
    exact h id hmem

theorem append_cases (id : Bytes) (w : World) (e : LogEntry) :
    World.append id w e = w ∨
      ∃ key, buildKey commandExecLogKind id e.ts.toInt e.rnd = .ok key ∧
        World.append id w e = ⟨w.store.set key e.value, w.history ++ [.logged id e.terminal]⟩ := by
  unfold World.append appendCommandLog
  split_ifs with hid
  · exact .inl rfl
  · rcases hkey : buildKey commandExecLogKind id e.ts.toInt e.rnd with err | key
    · exact .inl rfl
    · exact .inr ⟨key, rfl, rfl⟩

theorem logPrefix_of_buildKey {id rnd : Bytes} {ts : Int}
    (h : buildKey commandExecLogKind id ts rnd = .ok key) :
    id.length ≤ maxFieldLen ∧ logPrefix id <+: key := by
  obtain ⟨-, hid, rfl⟩ := buildKey_eq_ok.mp h
  exact ⟨hid, List.prefix_append ..⟩

theorem logPrefix_disjoint {id id' : Bytes} (hid : id.length ≤ maxFieldLen)
    (hid' : id'.length ≤ maxFieldLen) (h : logPrefix id <+: key) (h' : logPrefix id' <+: key) :
    id = id' := by
  obtain ⟨x, rfl⟩ := h
  obtain ⟨y, hy⟩ := h'
  exact (kindUnitPrefix_append_inj (by decide) (by decide) hid' hid hy).2.1.symm

theorem Finished.congr {s' : Store} {id : Bytes} (h : Finished s id)
    (hs : ∀ key, logPrefix id <+: key → s'.get key = s.get key) : Finished s' id := by
  obtain ⟨key, value, rec, hkey, hget, hdec, hstatus, hmax⟩ := h
  refine ⟨key, value, rec, hkey, (hs key hkey).trans hget, hdec, hstatus, ?_⟩
  intro key' value' hkey' hget'
  exact hmax key' value' hkey' ((hs key' hkey').symm.trans hget')

theorem Finished.set {id id' value : Bytes} (h : Finished s id')
    (hid : id.length ≤ maxFieldLen) (hid' : id'.length ≤ maxFieldLen) (hkey : logPrefix id <+: key)
    (hne : id' ≠ id) : Finished (s.set key value) id' := by
  refine h.congr fun key' hkey' => ?_
  unfold Store.set
  rw [OrdMap.get_insert, if_neg]
  rintro rfl
  exact hne (logPrefix_disjoint hid' hid hkey' hkey)

namespace Settled

variable {w : World} {id : Bytes} {e : LogEntry}

theorem ran (h : Settled w) (hopen : .logged id true ∉ w.history) : Settled (w.ran id) where
  once := by
    refine runOnce_snoc.mpr ⟨h.once, ?_⟩
    rintro id' hmem hran
    cases hran
    exact hopen hmem
  finished := by
    intro id' hmem
    simp only [World.ran, List.mem_append, List.mem_singleton, reduceCtorEq, or_false] at hmem
    obtain ⟨hran, hlen, hfin⟩ := h.finished id' hmem
    exact ⟨List.mem_append_left _ hran, hlen, hfin⟩

/-- While a handler runs: its instance has no result yet. -/
def Running (id : Bytes) (w : World) : Prop :=
  Settled w ∧ .ran id ∈ w.history ∧ .logged id true ∉ w.history

/-- An entry for a running instance keeps the other logs, and is the end of its own if it is a
result. -/
theorem append (h : Running id w) (hlast : e.terminal = true → NotLater w.store id e) :
    Settled (World.append id w e) := by
  obtain ⟨hset, hran, hopen⟩ := h
  rcases append_cases id w e with heq | ⟨key, hkey, heq⟩
  · rw [heq]
    exact hset
  rw [heq]
  obtain ⟨hlen, hpre⟩ := logPrefix_of_buildKey hkey
  constructor
  · refine runOnce_snoc.mpr ⟨hset.once, fun id' _ => ?_⟩
    exact nofun
  · intro id' hmem
    rcases List.mem_append.mp hmem with hold | hnew
    · obtain ⟨hran', hlen', hfin⟩ := hset.finished id' hold
      have hne : id' ≠ id := by
        rintro rfl
        exact hopen hold
      exact ⟨List.mem_append_left _ hran', hlen', hfin.set hlen hlen' hpre hne⟩
    · simp only [List.mem_singleton, Happened.logged.injEq] at hnew
      obtain ⟨rfl, hterm⟩ := hnew
      refine ⟨List.mem_append_left _ hran, hlen, key, e.value, e.record, hpre, ?_,
        e.decodes, ?_, ?_⟩
      · exact OrdMap.get_insert_self ..
      · exact of_decide_eq_true hterm.symm
      · intro key' value' hkey' hget'
        by_cases hne : key' = key
        · exact hne.le
        · rw [Store.set, OrdMap.get_insert, if_neg hne] at hget'
          exact hlast hterm.symm key key' value' hkey hkey' hget'

theorem Running.append (h : Running id w) (he : e.terminal = false) :
    Running id (World.append id w e) := by
  have hset := Settled.append h (fun hterm => by rw [he] at hterm; cases hterm)
  refine ⟨hset, ?_, ?_⟩
  all_goals
    rcases append_cases id w e with heq | ⟨key, -, heq⟩
  · rw [heq]
    exact h.2.1
  · rw [heq]
    exact List.mem_append_left _ h.2.1
  · rw [heq]
    exact h.2.2
  · rw [heq]
    simpa [he] using h.2.2

theorem Running.reports (h : Running id w) {es : List LogEntry}
    (hes : ∀ e ∈ es, e.terminal = false) :
    Running id (es.foldl (World.append id) w) := by
  induction es generalizing w with
  | nil => exact h
  | cons e es ih =>
    obtain ⟨he, hes⟩ := List.forall_mem_cons.mp hes
    exact ih (h.append he) hes

/-- A timely turn runs no finished request, and logs its result at the end. -/
theorem turn (h : Settled w) {req : CommandRequest} {t : Turn} (ht : t.Timely w req) :
    Settled (w.turn req t) := by
  unfold World.turn
  rcases hask : commandRequestAlreadyHandled w.store t.now.toInt req.instanceID with e | handled
  · exact h
  cases handled with
  | true => exact h
  | false =>
    have hopen : .logged req.instanceID true ∉ w.history := by
      intro hmem
      exact commandRequestAlreadyHandled_of_latest (h.finished _ hmem).2.2 (ht.1 hmem) hask
    have hrunning : Running req.instanceID (w.ran req.instanceID) := by
      refine ⟨h.ran hopen, List.mem_append_right _ (List.mem_singleton_self _), ?_⟩
      simpa [World.ran] using hopen
    exact Settled.append (hrunning.reports t.running) (ht.2 hask)

end Settled

/-! ## What a run does -/

inductive TimelyRounds : World → List (CommandRequest × Turn) → Prop
  | nil (w : World) : TimelyRounds w []
  | cons {w : World} {req : CommandRequest} {t : Turn} {turns : List (CommandRequest × Turn)}
      (head : t.Timely w req) (tail : TimelyRounds (w.turn req t) turns) :
        TimelyRounds w ((req, t) :: turns)

theorem Settled.rounds {w : World} {turns : List (CommandRequest × Turn)} (h : Settled w)
    (ht : TimelyRounds w turns) : Settled (rounds w turns) := by
  induction ht with
  | nil w => exact h
  | cons head tail ih => exact ih (h.turn head)

def Act.Timely (commandID : Bytes) (w : World) : Act → Prop
  | .pass clock turns => TimelyRounds w ((considered w.store clock commandID).zip turns)
  | .others _ => True

theorem Settled.act {w : World} {a : Act} (h : Settled w) (hsingle : a.Single w)
    (ht : a.Timely commandID w) : Settled (w.act commandID a) := by
  cases a with
  | pass clock turns => exact h.rounds ht
  | others s =>
    refine ⟨h.once, fun id hmem => ?_⟩
    obtain ⟨hran, hlen, hfin⟩ := h.finished id hmem
    exact ⟨hran, hlen, hfin.congr fun key hkey => hsingle id key hran hkey⟩

def Along (commandID : Bytes) (P : World → Act → Prop) : World → List Act → Prop
  | _, [] => True
  | w, a :: acts => P w a ∧ Along commandID P (w.act commandID a) acts

theorem Settled.run {w : World} {acts : List Act} (h : Settled w)
    (hrun : Along commandID (fun w a => a.Single w ∧ a.Timely commandID w) w acts) :
    Settled (acts.foldl (World.act commandID) w) := by
  induction acts generalizing w with
  | nil => exact h
  | cons a acts ih => exact ih (h.act hrun.1.1 hrun.1.2) hrun.2

/-- As long as the dispatcher's clock is not behind the log of a finished request, and results are
not logged behind earlier entries, no handler runs for a request whose result was logged. -/
theorem dispatched_once (commandID : Bytes) (w : World) (acts : List Act) (hstart : w.history = [])
    (hrun : Along commandID (fun w a => a.Single w ∧ a.Timely commandID w) w acts) :
    RunOnce (acts.foldl (World.act commandID) w).history := by
  refine (Settled.run ⟨?_, ?_⟩ hrun).once
  · rw [hstart]
    exact .nil
  · intro id hmem
    rw [hstart] at hmem
    cases hmem

/-- The key of a request for `c` in the unit `i`, a nanosecond after the epoch. -/
def builtRequestKey : Bytes := requestKey ++ List.replicate randSize 0

def oneRequest : World := ⟨OrdMap.empty.insert builtRequestKey bobsBody, []⟩

/-- A result for `i`, with the fraction of its second. -/
def successBody (fraction : String) : Bytes :=
  ascii "\x7b\"kind\":\"cmdlog\",\"unit_id\":\"i\",\"timestamp\":\"1970-01-01T00:00:00." ++
    (ascii fraction ++
      ascii "Z\",\"author_peer_id\":\"bob\",\"fields\":\x7b\"status\":\"success\"\x7d\x7d")

def successRecord (unixNano : Int) : Record :=
  ⟨ascii "cmdlog", ascii "i", ⟨unixNano, 0⟩, ascii "bob",
    OrdMap.empty.insert (ascii "status") (ascii "success"), []⟩

theorem decode_successBody_late : decode (successBody "0000001") = .ok (successRecord 100) := by
  decide +kernel

theorem decode_successBody_early : decode (successBody "00000005") = .ok (successRecord 50) := by
  decide +kernel

theorem length_zeros : (List.replicate randSize (0 : UInt8)).length = randSize :=
  List.length_replicate

def lateResult : LogEntry :=
  ⟨100, List.replicate randSize 0, successBody "0000001", successRecord 100, length_zeros,
    decode_successBody_late⟩

def earlyResult : LogEntry :=
  ⟨50, List.replicate randSize 0, successBody "00000005", successRecord 50, length_zeros,
    decode_successBody_early⟩

theorem no_reports : ∀ e ∈ ([] : List LogEntry), e.terminal = false := by simp

/-- A pass in which the clock shows `now` and every handler ends with `result`. -/
def passAt (now : Int64) (result : LogEntry) : Act :=
  .pass (fun _ => now.toInt) [⟨now, [], result, no_reports⟩]

theorem timely_pass {w : World} {now : Int64} {result : LogEntry}
    (req : CommandRequest) (hreqs : considered w.store (fun _ => now.toInt) commandID = [req])
    (hsight : InSight w.store now.toInt req.instanceID)
    (hlast : NotLater w.store req.instanceID result) :
    (passAt now result).Timely commandID w := by
  change TimelyRounds w ((considered w.store (fun _ => now.toInt) commandID).zip _)
  rw [hreqs]
  exact .cons ⟨fun _ => hsight, fun _ _ => hlast⟩ (.nil _)

theorem inSight_of_entries {id : Bytes}
    (h : ∀ e ∈ s.entries, logPrefix id <+: e.1 → isRevision now commandExecLogKind id e.1 = true) :
    InSight s now id := by
  intro key value hkey hget
  exact h (key, value) (OrdMap.get_eq_some.mp hget) hkey

theorem notLater_of_entries {id k : Bytes} {e : LogEntry}
    (hk : buildKey commandExecLogKind id e.ts.toInt e.rnd = .ok k)
    (h : ∀ x ∈ s.entries, logPrefix id <+: x.1 → x.1 ≤ k) : NotLater s id e := by
  intro newKey key value hnew hkey hget
  rw [hk] at hnew
  cases hnew
  exact h (key, value) (OrdMap.get_eq_some.mp hget) hkey

theorem buildKey_lateResult :
    buildKey commandExecLogKind (ascii "i") lateResult.ts.toInt lateResult.rnd =
    .ok (logPrefix (ascii "i") ++ (beBytes 8 100 ++ List.replicate randSize 0)) := by
  decide +kernel

/-- The clock goes on, and the second pass leaves the finished request alone. -/
theorem dispatched_once_forward :
    RunOnce ([passAt 90 lateResult, passAt 200 lateResult].foldl (World.act (ascii "c"))
        oneRequest).history ∧
      .logged (ascii "i") true ∈
        ([passAt 90 lateResult, passAt 200 lateResult].foldl (World.act (ascii "c"))
          oneRequest).history := by
  refine ⟨dispatched_once (ascii "c") oneRequest _ rfl ⟨⟨trivial, ?_⟩, ⟨trivial, ?_⟩, trivial⟩,
    by decide +kernel⟩
  · exact timely_pass bobsRequest (by decide +kernel) (inSight_of_entries (by decide +kernel))
      (notLater_of_entries buildKey_lateResult (by decide +kernel))
  · exact timely_pass bobsRequest (by decide +kernel) (inSight_of_entries (by decide +kernel))
      (notLater_of_entries buildKey_lateResult (by decide +kernel))

/-- The clock is set back after the first pass, and the finished request is run again. -/
theorem dispatched_twice :
    Along (ascii "c") (fun w a => a.Single w) oneRequest [passAt 100 lateResult,
      passAt 50 earlyResult] ∧
      ([passAt 100 lateResult, passAt 50 earlyResult].foldl (World.act (ascii "c"))
        oneRequest).history =
        [.ran (ascii "i"), .logged (ascii "i") true, .ran (ascii "i"), .logged (ascii "i") true] ∧
      ¬RunOnce ([passAt 100 lateResult, passAt 50 earlyResult].foldl (World.act (ascii "c"))
        oneRequest).history := by
  have hhistory : ([passAt 100 lateResult, passAt 50 earlyResult].foldl (World.act (ascii "c"))
      oneRequest).history =
        [.ran (ascii "i"), .logged (ascii "i") true, .ran (ascii "i"),
          .logged (ascii "i") true] := by
    decide +kernel
  refine ⟨⟨trivial, trivial, trivial⟩, hhistory, ?_⟩
  rw [hhistory]
  intro h
  have hpair := (List.pairwise_cons.mp (List.pairwise_cons.mp h).2).1
  exact hpair (.ran (ascii "i")) (by simp) (ascii "i") rfl rfl

end KvRaft.Kvctl
