import KvRaft.Daemon.Lifetime
import KvRaft.Logrecord.Order
import KvRaft.Logrecord.Record

/-! # Redeeming an execution invite (`applyConsumeExecInvite`)

The entry that uses up the invite is one, and what the invite is good for comes after it: the
command is read, and the request and its index entries are written, each by an entry of its own.
Between any two of these steps the entries of other clients are applied. -/

namespace KvRaft.Daemon

open Bytes Shmevent Kvfsm EStateM Encoding Logrecord

/-! ## What the libraries and the other clients do -/

/-- The random bytes and the clock of one log record, and the entries of other clients that are
applied before its own. -/
structure Draw where
  rnd : Except Err { b : Bytes // b.length = randSize }
  ts : Int64
  offset : Int
  before : List Log

/-- `json.Marshal`, whose results an entry can hold. -/
abbrev Marshal := Record → Except Err { b : Bytes // b.length < 2 ^ 31 }

/-- One redemption's share of the outside world. -/
structure Surroundings where
  /-- The 16 bytes of the instance's id. -/
  random : Except Err { b : Bytes // b.length = 16 }
  marshal : Marshal
  /-- The entries of other clients that are applied before the command is read. -/
  beforeRead : List Log
  request : Draw
  requester : Draw
  target : Draw

def Surroundings.others (x : Surroundings) : List Log :=
  x.beforeRead ++ (x.request.before ++ (x.requester.before ++ x.target.before))

def meanwhile (log : List Log) : M Unit := modify fun n => n.withStore (applyAll n.store log)

/-! ## The source's functions -/

def execInviteCommandRequestLogKind (commandID : Bytes) : Bytes := ascii "cmdreq:" ++ commandID

def execInviteCommandExecIndexKind (peerID : Bytes) : Bytes := ascii "cmdexec:" ++ peerID

def execInviteIndexRoleRequester : Bytes := ascii "r"
def execInviteIndexRoleTarget : Bytes := ascii "t"

def newExecInviteInstanceID (x : Surroundings) : Except Err Bytes :=
  match x.random with
  | .error e => .error (.wrap .execInviteGenerateID e)
  | .ok b => .ok (Text.hexEncode b.1)

def Draw.record (d : Draw) (kind unitID authorPeerID : Bytes)
    (fields : OrdMap Bytes Bytes) : Record :=
  ⟨kind, unitID, ⟨d.ts.toInt, d.offset⟩, authorPeerID, fields, []⟩

def newRecord (marshal : Marshal) (d : Draw) (kind unitID authorPeerID : Bytes)
    (fields : OrdMap Bytes Bytes) :
    Except Err (Bytes × Bytes) :=
  match d.rnd with
  | .error e => .error e
  | .ok rnd =>
    match buildKey kind unitID d.ts.toInt rnd.1 with
    | .error e => .error e
    | .ok key =>
      match marshal (d.record kind unitID authorPeerID fields) with
      | .error e => .error e
      | .ok value => .ok (key, value.1)

/-- Its callers leave the narrative empty. -/
def appendExecInviteLogRecord (env : Env) (marshal : Marshal) (d : Draw)
    (kind unitID authorPeerID : Bytes) (fields : OrdMap Bytes Bytes) : M Unit := do
  let kv ← ofExcept (newRecord marshal d kind unitID authorPeerID fields)
  meanwhile d.before
  applyOp env .set kv.1 kv.2

def requestFields (commandID inputsJSON : Bytes) : OrdMap Bytes Bytes :=
  let fields := OrdMap.empty.insert (ascii "command_id") commandID
  if inputsJSON ≠ [] then fields.insert (ascii "inputs") inputsJSON else fields

def indexFields (commandID role : Bytes) : OrdMap Bytes Bytes :=
  (OrdMap.empty.insert (ascii "command_id") commandID).insert (ascii "role") role

def writeExecInviteCommandRequest (env : Env) (x : Surroundings)
    (instanceID commandID inputsJSON redeemerPeerID targetPeerID : Bytes) : M Unit := do
  wrapping .execInviteWriteRequest (appendExecInviteLogRecord env x.marshal x.request
    (execInviteCommandRequestLogKind commandID) instanceID redeemerPeerID
      (requestFields commandID inputsJSON))
  wrapping .execInviteWriteRequesterIndex (appendExecInviteLogRecord env x.marshal x.requester
    (execInviteCommandExecIndexKind redeemerPeerID) instanceID redeemerPeerID
    (indexFields commandID execInviteIndexRoleRequester))
  if targetPeerID ≠ redeemerPeerID then
    wrapping .execInviteWriteTargetIndex (appendExecInviteLogRecord env x.marshal x.target
      (execInviteCommandExecIndexKind targetPeerID) instanceID redeemerPeerID
      (indexFields commandID execInviteIndexRoleTarget))
  else pure ()

def commandTarget (s : Store) (commandID : Bytes) : Except Err Bytes :=
  match s.get! (commandKey commandID) with
  | .error e => .error (.wrap (.execInviteCommandNotFound commandID) e)
  | .ok value =>
    match decodeCommandPayload value with
    | .error e => .error (.wrap (.execInviteDecodeCommand commandID) e)
    | .ok (_, targetPeerID) => .ok targetPeerID

/-- What follows the entry that redeemed an invite, up to the message that tells the target. -/
def recordRedemption (env : Env) (x : Surroundings) (redeemerPeerID : Bytes)
    (r : ExecInviteRecord) : M Bytes := do
  let instanceID ← ofExcept (newExecInviteInstanceID x)
  meanwhile x.beforeRead
  let targetPeerID ← ofExcept (commandTarget (← get).store r.commandID)
  writeExecInviteCommandRequest env x instanceID r.commandID r.inputsJSON redeemerPeerID
    targetPeerID
  return instanceID

def redeemEntry (token redeemerPeerID : Bytes) : Bytes :=
  encodeCommand .consumeExecInvite (execInviteKey token) redeemerPeerID

def applyConsumeExecInvite (env : Env) (x : Surroundings) (token redeemerPeerID : Bytes) :
    M Bytes := do
  let res ← wrapping .execInvite (raftApply env (redeemEntry token redeemerPeerID))
  match res.err with
  | some e => throw (.wrap .execInviteInvalid e)
  | none => do
    let r ← wrapping .execInvite (ofExcept (decodeExecInviteRecord res.value))
    recordRedemption env x redeemerPeerID r

/-! ## Log records -/

/-- The libraries deliver, and the kind fits the key. -/
def Draw.Delivers (d : Draw) (marshal : Marshal) (kind unitID authorPeerID : Bytes)
    (fields : OrdMap Bytes Bytes) : Prop :=
  (∃ rnd, d.rnd = .ok rnd) ∧ kind.length ≤ maxFieldLen ∧
    ∃ value, marshal (d.record kind unitID authorPeerID fields) = .ok value

section Records

variable {env : Env} {marshal : Marshal} {d : Draw} {kind unitID author : Bytes}
  {fields : OrdMap Bytes Bytes}
  {kv : Bytes × Bytes}

theorem newRecord_ok (h : newRecord marshal d kind unitID author fields = .ok kv) :
    parseKey kv.1 = .ok ⟨kind, unitID, d.ts.toInt⟩ ∧ kv.1.length ≤ 2 ^ 18 ∧
      ∃ value, marshal (d.record kind unitID author fields) = .ok value ∧ kv.2 = value.1 := by
  unfold newRecord at h
  rcases hrnd : d.rnd with e | rnd <;> rw [hrnd] at h
  · cases h
  dsimp only at h
  rcases hkey : buildKey kind unitID d.ts.toInt rnd.1 with e | key <;> rw [hkey] at h
  · cases h
  dsimp only at h
  rcases hvalue : marshal (d.record kind unitID author fields) with e | value <;> rw [hvalue] at h
  · cases h
  cases h
  refine ⟨parseKey_of_buildKey hkey, ?_, value, rfl, rfl⟩
  obtain ⟨hkind, hunit, rfl⟩ := buildKey_eq_ok.mp hkey
  have hsize := rnd.2
  simp only [maxFieldLen, randSize] at hkind hunit hsize
  simp only [kindUnitPrefix, List.length_append, List.length_cons, length_beBytes]
  omega

theorem newRecord_isOk_iff (hunit : unitID.length ≤ maxFieldLen) :
    (∃ kv, newRecord marshal d kind unitID author fields = .ok kv) ↔
      d.Delivers marshal kind unitID author fields := by
  unfold newRecord Draw.Delivers
  rcases d.rnd with e | rnd
  · simp
  dsimp only
  by_cases hkind : kind.length ≤ maxFieldLen
  · obtain ⟨key, hkey⟩ : ∃ key, buildKey kind unitID d.ts.toInt rnd.1 = .ok key :=
      ⟨_, buildKey_eq_ok.mpr ⟨hkind, hunit, rfl⟩⟩
    rw [hkey]
    rcases marshal (d.record kind unitID author fields) with e | value <;> simp [hkind]
  · have hkey : buildKey kind unitID d.ts.toInt rnd.1 = .error (.kindTooLong kind.length) := by
      rw [buildKey, if_pos (by omega)]
    rw [hkey]
    simp [hkind]

theorem run_append (hcalm : ∀ cmd, env.applyFault cmd = none)
    (h : newRecord marshal d kind unitID author fields = .ok kv) (ctx : Ctx) (n : Node)
    (s : Store) :
    wrapping ctx (appendExecInviteLogRecord env marshal d kind unitID author fields)
      (n.withStore s) = .ok () (n.withStore ((applyAll s d.before).set kv.1 kv.2)) := by
  obtain ⟨hparse, hlen, value, -, hvalue⟩ := newRecord_ok h
  have hshort := value.2
  have hdec : decodeCommand (encodeCommand .set kv.1 kv.2) = .ok ⟨.set, kv.1, kv.2⟩ :=
    decodeCommand_encodeCommand (by rw [hvalue]; omega)
  have happly : ∀ s t, apply s ⟨encodeCommand .set kv.1 kv.2, t⟩ = ({}, s.set kv.1 kv.2) := by
    intro s t
    simp only [apply, hdec, applySet_logKey hparse]
  have hrun : appendExecInviteLogRecord env marshal d kind unitID author fields (n.withStore s) =
      .ok () (n.withStore ((applyAll s d.before).set kv.1 kv.2)) := by
    have hfirst :
        (ofExcept (newRecord marshal d kind unitID author fields) : M (Bytes × Bytes))
          (n.withStore s) =
        .ok kv (n.withStore s) := by
      rw [h]
      rfl
    have hsecond :
        meanwhile d.before (n.withStore s) = .ok () (n.withStore (applyAll s d.before)) := rfl
    rw [appendExecInviteLogRecord, run_bind_of_ok hfirst, run_bind_of_ok hsecond,
      run_applyOp (hcalm _), happly]
    rfl
  rw [wrapping, hrun]

theorem outcome_append_of_error {e : Err}
    (h : newRecord marshal d kind unitID author fields = .error e) (ctx : Ctx) (n : Node) :
    (wrapping ctx (appendExecInviteLogRecord env marshal d kind unitID author fields)).outcome n =
      .error (.wrap ctx e) := by
  rw [outcome_wrapping, appendExecInviteLogRecord, outcome_bind, outcome_ofExcept, h]
  rfl

end Records

/-! ## After the entry -/

theorem run_meanwhile_bind {α : Type} (log : List Log) (f : Unit → M α) (n : Node) :
    (meanwhile log >>= f) n = f () (n.withStore (applyAll n.store log)) := rfl

theorem length_newExecInviteInstanceID {x : Surroundings} {id : Bytes}
    (h : newExecInviteInstanceID x = .ok id) :
    id.length ≤ maxFieldLen := by
  unfold newExecInviteInstanceID at h
  rcases hrandom : x.random with e | b <;> rw [hrandom] at h
  · cases h
  · cases h
    have hb := b.2
    simp only [Text.hexEncode, List.length_flatMap, List.length_cons, List.length_nil,
      List.map_const', List.sum_replicate, smul_eq_mul, maxFieldLen]
    omega

theorem commandTarget_ok {s : Store} {commandID targetPeerID : Bytes} :
    commandTarget s commandID = .ok targetPeerID ↔ ∃ value name,
      s.get (commandKey commandID) = some value ∧
        decodeCommandPayload value = .ok (name, targetPeerID) := by
  unfold commandTarget Store.get!
  rcases s.get (commandKey commandID) with _ | value
  · simp
  · rcases hdecode : decodeCommandPayload value with e | ⟨name, target⟩
    · simp [hdecode]
    · simp [hdecode]

/-- All that a redemption needs once the invite is used up: an id for the instance, the command, and
records of the request and of the index that fit their keys. -/
def Recordable (x : Surroundings) (s : Store) (redeemerPeerID : Bytes)
    (r : ExecInviteRecord) : Prop :=
  ∃ id value name targetPeerID, newExecInviteInstanceID x = .ok id ∧
    (applyAll s x.beforeRead).get (commandKey r.commandID) = some value ∧
    decodeCommandPayload value = .ok (name, targetPeerID) ∧
    x.request.Delivers x.marshal (execInviteCommandRequestLogKind r.commandID) id redeemerPeerID
      (requestFields r.commandID r.inputsJSON) ∧
    x.requester.Delivers x.marshal (execInviteCommandExecIndexKind redeemerPeerID) id redeemerPeerID
      (indexFields r.commandID execInviteIndexRoleRequester) ∧
    (targetPeerID ≠ redeemerPeerID →
      x.target.Delivers x.marshal (execInviteCommandExecIndexKind targetPeerID) id redeemerPeerID
        (indexFields r.commandID execInviteIndexRoleTarget))

/-! ## Other clients -/

def Touches (log : List Log) (k : Bytes) : Prop := ∃ l ∈ log, ∃ s, (apply s l).2.get k ≠ s.get k

variable {k : Bytes} {log : List Log}

theorem get_applyAll (h : ¬Touches log k) (s : Store) :
    (applyAll s log).get k = s.get k := by
  induction log generalizing s with
  | nil => rfl
  | cons l log ih =>
    have htail : ¬Touches log k := fun ⟨l', hl', hs⟩ => h ⟨l', List.mem_cons_of_mem l hl', hs⟩
    have hhead : (apply s l).2.get k = s.get k := by
      by_contra hne
      exact h ⟨l, List.mem_cons_self, s, hne⟩
    exact (ih htail (apply s l).2).trans hhead

theorem touches_append {log' : List Log} :
    Touches (log ++ log') k ↔ Touches log k ∨ Touches log' k := by
  simp only [Touches, List.mem_append, or_and_right, exists_or]

theorem not_touches_others {x : Surroundings} : ¬Touches x.others k ↔
    ¬Touches x.beforeRead k ∧ ¬Touches x.request.before k ∧ ¬Touches x.requester.before k ∧
      ¬Touches x.target.before k := by
  simp only [Surroundings.others, touches_append, not_or]

/-- A record that other clients leave alone survives their entries and the write
of another record. -/
theorem get_write (hlog : ¬Touches log k) {kv : Bytes × Bytes} (hne : k ≠ kv.1)
    (s : Store) : ((applyAll s log).set kv.1 kv.2).get k = s.get k := by
  rw [Store.set, OrdMap.get_insert, if_neg hne, get_applyAll hlog]

theorem head_of_parseKey {p : ParsedKey} (h : parseKey k = .ok p) :
    k.head? = some logKeyPrefix := by
  obtain ⟨-, -, rest, -, rfl⟩ := parseKey_ok h
  rfl

section After

variable {env : Env} {x : Surroundings} {redeemer : Bytes} {r : ExecInviteRecord} {n : Node}

theorem recordable_of_ok {id : Bytes} (h : (recordRedemption env x redeemer r).outcome n = .ok id) :
    newExecInviteInstanceID x = .ok id ∧ Recordable x n.store redeemer r := by
  rw [recordRedemption, outcome_bind, outcome_ofExcept, final_ofExcept] at h
  rcases hid : newExecInviteInstanceID x with e | iid <;> rw [hid] at h
  · cases h
  have hunit := length_newExecInviteInstanceID hid
  dsimp only at h
  set m := n.withStore (applyAll n.store x.beforeRead) with hm
  change (ofExcept (commandTarget m.store r.commandID) >>= fun targetPeerID => do
    writeExecInviteCommandRequest env x iid r.commandID r.inputsJSON redeemer targetPeerID
    return iid : M Bytes).outcome m = _ at h
  rw [outcome_bind, outcome_ofExcept, final_ofExcept] at h
  rcases htarget : commandTarget m.store r.commandID with e | target <;> rw [htarget] at h
  · cases h
  obtain ⟨u, hwrite, hret, -⟩ := bind_of_ok h
  cases hret
  obtain ⟨value, name, hvalue, hname⟩ := commandTarget_ok.mp htarget
  obtain ⟨u₁, hrequest, hwrite, -⟩ := bind_of_ok hwrite
  obtain ⟨u₂, hrequester, hwrite, -⟩ := bind_of_ok hwrite
  have hdelivers : ∀ {ctx : Ctx} {d : Draw} {kind fields} {m : Node} {u : Unit},
      (wrapping ctx (appendExecInviteLogRecord env x.marshal d kind id redeemer fields)).outcome
        m = .ok u → d.Delivers x.marshal kind id redeemer fields := by
    intro ctx d kind fields m u hok
    rw [← newRecord_isOk_iff hunit]
    rcases hnew : newRecord x.marshal d kind id redeemer fields with e | kv
    · rw [outcome_append_of_error hnew] at hok
      cases hok
    · exact ⟨kv, rfl⟩
  refine ⟨rfl, id, value, name, target, hid, hvalue, hname, hdelivers hrequest,
    hdelivers hrequester, fun hne => ?_⟩
  rw [if_pos hne] at hwrite
  exact hdelivers hwrite

theorem requestKind_ne (commandID peerID : Bytes) :
    execInviteCommandRequestLogKind commandID ≠ execInviteCommandExecIndexKind peerID := by
  intro h
  have hfirst := congrArg (List.take 4) h
  rw [execInviteCommandRequestLogKind, execInviteCommandExecIndexKind,
    List.take_append_of_le_length (by decide), List.take_append_of_le_length (by decide)] at hfirst
  exact absurd hfirst (by decide)

theorem run_recordRedemption (hcalm : ∀ cmd, env.applyFault cmd = none)
    (h : Recordable x n.store redeemer r) :
    ∃ id kv s, newExecInviteInstanceID x = .ok id ∧
      newRecord x.marshal x.request (execInviteCommandRequestLogKind r.commandID) id redeemer
        (requestFields r.commandID r.inputsJSON) = .ok kv ∧
      recordRedemption env x redeemer r n = .ok id (n.withStore s) ∧
      (∀ k, k.head? ≠ some logKeyPrefix → ¬Touches x.others k → s.get k = n.store.get k) ∧
      (¬Touches x.others kv.1 → s.get kv.1 = some kv.2) := by
  obtain ⟨id, value, name, target, hid, hvalue, hname, hrequest, hrequester, htarget⟩ := h
  have hunit := length_newExecInviteInstanceID hid
  obtain ⟨kv₁, h₁⟩ := (newRecord_isOk_iff hunit).mpr hrequest
  obtain ⟨kv₂, h₂⟩ := (newRecord_isOk_iff hunit).mpr hrequester
  have hne : ∀ {d : Draw} {peerID fields kv},
      newRecord x.marshal d (execInviteCommandExecIndexKind peerID) id redeemer
      fields = .ok kv → kv₁.1 ≠ kv.1 := by
    intro d peerID fields kv hkv heq
    have hparse := (newRecord_ok h₁).1
    rw [heq, (newRecord_ok hkv).1, Except.ok.injEq, ParsedKey.mk.injEq] at hparse
    exact requestKind_ne _ _ hparse.1.symm
  have hlog :
      ∀ {d : Draw} {kind fields kv k}, newRecord x.marshal d kind id redeemer fields = .ok kv →
      k.head? ≠ some logKeyPrefix → k ≠ kv.1 := by
    rintro d kind fields kv k hkv hk rfl
    exact hk (head_of_parseKey (newRecord_ok hkv).1)
  have hsome : ∀ (s : Store) (kv : Bytes × Bytes), (s.set kv.1 kv.2).get kv.1 = some kv.2 := by
    intro s kv
    rw [Store.set, OrdMap.get_insert, if_pos rfl]
  set s₂ := applyAll n.store x.beforeRead
  set s₃ := (applyAll s₂ x.request.before).set kv₁.1 kv₁.2
  set s₄ := (applyAll s₃ x.requester.before).set kv₂.1 kv₂.2
  have hfirst : (ofExcept (newExecInviteInstanceID x) : M Bytes) n = .ok id n := by
    rw [hid]
    rfl
  have hcommand :
      (ofExcept (commandTarget s₂ r.commandID) : M Bytes) (n.withStore s₂) =
        .ok target (n.withStore s₂) := by
    rw [commandTarget_ok.mpr ⟨value, name, hvalue, hname⟩]
    rfl
  have hprogram :
      ∀ {m}, writeExecInviteCommandRequest env x id r.commandID r.inputsJSON redeemer target
      (n.withStore s₂) = .ok () m → recordRedemption env x redeemer r n = .ok id m := by
    intro m hwrite
    rw [recordRedemption, run_bind_of_ok hfirst, run_meanwhile_bind]
    exact (run_bind_of_ok hcommand _).trans (run_bind_of_ok hwrite _)
  have hkeep : ∀ k, k.head? ≠ some logKeyPrefix → ¬Touches x.others k →
      s₄.get k = n.store.get k := by
    intro k hk huntouched
    obtain ⟨hread, hbefore₁, hbefore₂, -⟩ := not_touches_others.mp huntouched
    rw [get_write hbefore₂ (hlog h₂ hk), get_write hbefore₁ (hlog h₁ hk), get_applyAll hread]
  have hwritten : ¬Touches x.others kv₁.1 → s₄.get kv₁.1 = some kv₁.2 := by
    intro huntouched
    rw [get_write (not_touches_others.mp huntouched).2.2.1 (hne h₂), hsome]
  have hrun₁ := run_append hcalm h₁ .execInviteWriteRequest n s₂
  have hrun₂ := run_append hcalm h₂ .execInviteWriteRequesterIndex n s₃
  by_cases hself : target ≠ redeemer
  · obtain ⟨kv₃, h₃⟩ := (newRecord_isOk_iff hunit).mpr (htarget hself)
    have hrun₃ := run_append hcalm h₃ .execInviteWriteTargetIndex n s₄
    refine ⟨id, kv₁, (applyAll s₄ x.target.before).set kv₃.1 kv₃.2, hid, h₁, ?_,
      fun k hk huntouched => ?_, fun huntouched => ?_⟩
    · have hwrite :
          writeExecInviteCommandRequest env x id r.commandID r.inputsJSON redeemer target
            (n.withStore s₂) =
          .ok () (n.withStore ((applyAll s₄ x.target.before).set kv₃.1 kv₃.2)) := by
        rw [writeExecInviteCommandRequest, run_bind_of_ok hrun₁, run_bind_of_ok hrun₂, if_pos hself]
        exact hrun₃
      exact hprogram hwrite
    · rw [get_write (not_touches_others.mp huntouched).2.2.2 (hlog h₃ hk), hkeep k hk huntouched]
    · rw [get_write (not_touches_others.mp huntouched).2.2.2 (hne h₃), hwritten huntouched]
  · refine ⟨id, kv₁, s₄, hid, h₁, ?_, hkeep, hwritten⟩
    have hwrite :
        writeExecInviteCommandRequest env x id r.commandID r.inputsJSON redeemer target
          (n.withStore s₂) =
        .ok () (n.withStore s₄) := by
      rw [writeExecInviteCommandRequest, run_bind_of_ok hrun₁, run_bind_of_ok hrun₂, if_neg hself]
      rfl
    exact hprogram hwrite

end After

/-! ## The whole redemption -/

structure IsRequest (marshal : Marshal) (commandID instanceID redeemerPeerID k value : Bytes) :
    Prop where
  key : ∃ ts, parseKey k = .ok ⟨execInviteCommandRequestLogKind commandID, instanceID, ts⟩
  value : ∃ rec v, marshal rec = .ok v ∧ v.1 = value ∧ rec.unitID = instanceID ∧
    rec.authorPeerID = redeemerPeerID ∧ rec.fields.get (ascii "command_id") = some commandID

def IsRequestKey (k : Bytes) : Prop :=
  ∃ p, parseKey k = .ok p ∧ (parseCommandRequestLogKind p.kind).isSome = true

def ExpiredInvite (s : Store) (key : Bytes) (t : Int) : Prop :=
  ∃ v r, s.get key = some v ∧ decodeExecInviteRecord v = .ok r ∧ expired r t = true

theorem head_execInviteKey (token : Bytes) : (execInviteKey token).head? ≠ some logKeyPrefix := by
  change some systemKeyPrefix ≠ some logKeyPrefix
  decide

theorem get_requestFields (commandID inputsJSON : Bytes) :
    (requestFields commandID inputsJSON).get (ascii "command_id") = some commandID := by
  have hne : ascii "command_id" ≠ ascii "inputs" := by decide
  unfold requestFields
  split_ifs
  · rw [OrdMap.get_insert, if_neg hne, OrdMap.get_insert, if_pos rfl]
  · rw [OrdMap.get_insert, if_pos rfl]

theorem isRequest_of_newRecord {marshal : Marshal} {d : Draw}
    {commandID inputsJSON id redeemer : Bytes} {kv : Bytes × Bytes}
    (h : newRecord marshal d (execInviteCommandRequestLogKind commandID) id redeemer
      (requestFields commandID inputsJSON) = .ok kv) : IsRequest marshal commandID id redeemer
        kv.1 kv.2 := by
  obtain ⟨hparse, -, value, hvalue, heq⟩ := newRecord_ok h
  exact ⟨⟨_, hparse⟩, _, value, hvalue, heq.symm, rfl, rfl, get_requestFields commandID inputsJSON⟩

section Property

variable (env : Env) (x : Surroundings) (token redeemerPeerID : Bytes) (n : Node)

def redeemedStore : Store := (apply n.store ⟨redeemEntry token redeemerPeerID, env.now⟩).2

/-- The invite is gone and the request of the instance is there, as long as no other client has
written the same record. -/
def Redeemed (instanceID : Bytes) (s : Store) : Prop :=
  (redeemedStore env token redeemerPeerID n).get (execInviteKey token) = none ∧
    (s.get (execInviteKey token) = none ∨ Touches x.others (execInviteKey token)) ∧
    ∃ v r k value, n.store.get (execInviteKey token) = some v ∧ decodeExecInviteRecord v = .ok r ∧
      IsRequest x.marshal r.commandID instanceID redeemerPeerID k value ∧
      (s.get k = some value ∨ Touches x.others k)

/-- The invite is still there if it was, and there is no request that was not, as long as no other
client has written the same record. -/
def Unredeemed (s : Store) : Prop :=
  (redeemedStore env token redeemerPeerID n).get (execInviteKey token) =
    n.store.get (execInviteKey token) ∧
    (s.get (execInviteKey token) = n.store.get (execInviteKey token) ∨
      Touches x.others (execInviteKey token)) ∧
    ∀ k, IsRequestKey k → s.get k = n.store.get k ∨ Touches x.others k

/-- A redemption that returns an id has done all of it, one that fails nothing, unless the invite
had expired. -/
def AllOrNothing : Prop :=
  match (applyConsumeExecInvite env x token redeemerPeerID).outcome n with
  | .ok instanceID => Redeemed env x token redeemerPeerID n instanceID
      ((applyConsumeExecInvite env x token redeemerPeerID).final n).store
  | .error _ => ExpiredInvite n.store (execInviteKey token) env.now ∨
      Unredeemed env x token redeemerPeerID n
        ((applyConsumeExecInvite env x token redeemerPeerID).final n).store

end Property

section Whole

variable {env : Env} {x : Surroundings} {token redeemer : Data} {n : Node}

theorem decode_redeemEntry (token redeemer : Data) :
    decodeCommand (redeemEntry token.1 redeemer.1) =
    .ok ⟨.consumeExecInvite, execInviteKey token.1, redeemer.1⟩ := by
  have htoken := token.2
  have hredeemer := redeemer.2
  refine decodeCommand_encodeCommand ?_
  simp only [execInviteKey, systemKey, List.length_cons]
  omega

theorem redeem_refused {s : Store} {t : Int} {key redeemer : Bytes} {e : Err}
    (h : (Kvfsm.applyConsumeExecInvite s t key redeemer).1.err = some e) :
    ExpiredInvite s key t ∨ (Kvfsm.applyConsumeExecInvite s t key redeemer).2 = s := by
  rcases hv : s.get key with _ | v
  · exact .inr (by simp only [Kvfsm.applyConsumeExecInvite, Store.get!, hv, fail])
  rcases hr : decodeExecInviteRecord v with e' | r
  · exact .inr (by simp only [Kvfsm.applyConsumeExecInvite, Store.get!, hv, hr, fail])
  rcases he : expired r t with _ | _
  · by_cases hp : isPermittedForCommand s r.commandID redeemer = .ok true
    · rw [applyConsumeExecInvite_permitted hv hr he hp] at h
      cases h
    · exact .inr (applyConsumeExecInvite_not_permitted hv hr he hp).2
  · exact .inl ⟨v, r, hv, hr, he⟩

variable (hcalm : ∀ cmd, env.applyFault cmd = none)
include hcalm

theorem run_refused {e : Err}
    (h : (apply n.store ⟨redeemEntry token.1 redeemer.1, env.now⟩).1.err = some e) :
    applyConsumeExecInvite env x token.1 redeemer.1 n =
      .error (.wrap .execInviteInvalid e)
        (n.withStore (redeemedStore env token.1 redeemer.1 n)) := by
  have hraft : wrapping .execInvite (raftApply env (redeemEntry token.1 redeemer.1)) n =
      .ok (apply n.store ⟨redeemEntry token.1 redeemer.1, env.now⟩).1
        (n.withStore (redeemedStore env token.1 redeemer.1 n)) := by
    rw [wrapping, run_raftApply (hcalm _)]
    rfl
  rw [applyConsumeExecInvite, run_bind_of_ok hraft, h]
  rfl

theorem run_accepted {v : Bytes} {r : ExecInviteRecord}
    (h : apply n.store ⟨redeemEntry token.1 redeemer.1, env.now⟩ =
      ({ value := v }, n.store.delete (execInviteKey token.1)))
    (hr : decodeExecInviteRecord v = .ok r) :
    applyConsumeExecInvite env x token.1 redeemer.1 n =
      recordRedemption env x redeemer.1 r
        (n.withStore (n.store.delete (execInviteKey token.1))) := by
  have hraft : wrapping .execInvite (raftApply env (redeemEntry token.1 redeemer.1)) n =
      .ok { value := v } (n.withStore (n.store.delete (execInviteKey token.1))) := by
    rw [wrapping, run_raftApply (hcalm _), h]
  have hrecord : (wrapping .execInvite (ofExcept (decodeExecInviteRecord v)) : M ExecInviteRecord)
      (n.withStore (n.store.delete (execInviteKey token.1))) =
      .ok r (n.withStore (n.store.delete (execInviteKey token.1))) := by
    rw [hr]
    rfl
  rw [applyConsumeExecInvite, run_bind_of_ok hraft]
  exact run_bind_of_ok hrecord _

/-- Nothing is lost exactly when everything behind the accepted entry goes through. -/
theorem redemption_all_or_nothing_iff :
    AllOrNothing env x token.1 redeemer.1 n ↔
      ∀ v r, n.store.get (execInviteKey token.1) = some v → decodeExecInviteRecord v = .ok r →
        expired r env.now = false →
          isPermittedForCommand n.store r.commandID redeemer.1 = .ok true →
        Recordable x (n.store.delete (execInviteKey token.1)) redeemer.1 r := by
  have happly : apply n.store ⟨redeemEntry token.1 redeemer.1, env.now⟩ =
      Kvfsm.applyConsumeExecInvite n.store env.now (execInviteKey token.1) redeemer.1 :=
    apply_consumeExecInvite (l := ⟨_, env.now⟩) (decode_redeemEntry token redeemer)
  rcases herr : (apply n.store ⟨redeemEntry token.1 redeemer.1, env.now⟩).1.err with _ | e
  · rw [happly] at herr
    obtain ⟨v, r, hv, hr, hfresh, hpermitted⟩ := applyConsumeExecInvite_ok_iff.mp herr
    rw [applyConsumeExecInvite_permitted hv hr hfresh hpermitted] at happly
    have hrun := run_accepted (x := x) hcalm happly hr
    have hgone : (redeemedStore env token.1 redeemer.1 n).get (execInviteKey token.1) = none := by
      rw [redeemedStore, happly, Store.delete, OrdMap.get_erase, if_pos rfl]
    have hiff :
        (∀ v r, n.store.get (execInviteKey token.1) = some v → decodeExecInviteRecord v = .ok r →
        expired r env.now = false →
          isPermittedForCommand n.store r.commandID redeemer.1 = .ok true →
        Recordable x (n.store.delete (execInviteKey token.1)) redeemer.1 r) ↔
          Recordable x (n.store.delete (execInviteKey token.1)) redeemer.1 r := by
      constructor
      · exact fun h => h v r hv hr hfresh hpermitted
      · intro h v' r' hv' hr' _ _
        cases hv.symm.trans hv'
        cases hr.symm.trans hr'
        exact h
    rw [hiff]
    by_cases hrecordable : Recordable x (n.store.delete (execInviteKey token.1)) redeemer.1 r
    · refine iff_of_true ?_ hrecordable
      obtain ⟨id, kv, s, -, hnew, hrest, hkeep, hwritten⟩ :=
        run_recordRedemption (n := n.withStore (n.store.delete (execInviteKey token.1)))
          hcalm hrecordable
      simp only [AllOrNothing, outcome, final, hrun.trans hrest]
      refine ⟨hgone, or_iff_not_imp_right.mpr fun huntouched => ?_, v, r, kv.1, kv.2, hv, hr,
        isRequest_of_newRecord hnew, or_iff_not_imp_right.mpr hwritten⟩
      exact (hkeep _ (head_execInviteKey token.1) huntouched).trans (by
        rw [Node.withStore, Store.delete, OrdMap.get_erase, if_pos rfl])
    · refine iff_of_false (fun hall => ?_) hrecordable
      rcases hres : applyConsumeExecInvite env x token.1 redeemer.1 n with ⟨id, n'⟩ | ⟨e, n'⟩
      · exact hrecordable (@recordable_of_ok _ _ _ _ _ id (by rw [outcome, ← hrun, hres])).2
      · simp only [AllOrNothing, outcome, hres] at hall
        rcases hall with ⟨v', r', hv', hr', hexpired⟩ | ⟨hsame, -⟩
        · cases hv.symm.trans hv'
          cases hr.symm.trans hr'
          rw [hfresh] at hexpired
          cases hexpired
        · rw [hgone, hv] at hsame
          cases hsame
  · have hrun := run_refused (x := x) hcalm herr
    refine iff_of_true ?_ fun v r hv hr hfresh hpermitted => ?_
    · simp only [AllOrNothing, outcome, final, hrun]
      have hrefused := redeem_refused (happly ▸ herr)
      refine hrefused.imp_right fun hsame => ?_
      have hstore : redeemedStore env token.1 redeemer.1 n = n.store := by
        rw [redeemedStore, happly, hsame]
      rw [hstore]
      exact ⟨by rw [hstore], .inl rfl, fun _ _ => .inl rfl⟩
    · rw [happly, applyConsumeExecInvite_permitted hv hr hfresh hpermitted] at herr
      cases herr

end Whole

theorem length_noRandom : (List.replicate randSize (0 : UInt8)).length = randSize :=
  List.length_replicate

theorem length_noInstance : (List.replicate 16 (0 : UInt8)).length = 16 := List.length_replicate

/-- The clock stands, the random source gives zeros, and nobody else is there. -/
def quietDraw : Draw := ⟨.ok ⟨_, length_noRandom⟩, 0, 0, []⟩

theorem length_noEntry_lt : ([] : Bytes).length < 2 ^ 31 := by decide

def quietSurroundings : Surroundings where
  random := .ok ⟨_, length_noInstance⟩
  marshal := fun _ => .ok ⟨[], length_noEntry_lt⟩
  beforeRead := []
  request := quietDraw
  requester := quietDraw
  target := quietDraw

/-- An invite for the command `c`, which everybody may run and nobody has defined. -/
def undefinedNode : Node :=
  Node.alone (ascii "l") (linkedStore [] (encodeExecInviteRecord (ascii "c") [] 0) (ascii "c"))

def definedNode : Node :=
  undefinedNode.withStore
    (undefinedNode.store.set (commandKey (ascii "c")) (beBytes 2 1 ++ (ascii "n" ++ ascii "t")))

def peerP : Data := ⟨ascii "p", Data.length_single_lt _⟩

def noToken : Data := ⟨[], Data.length_nil_lt⟩

theorem redemption_all_or_nothing_defined :
    AllOrNothing {} quietSurroundings noToken.1 peerP.1 definedNode := by
  refine (@redemption_all_or_nothing_iff {} quietSurroundings noToken peerP definedNode fun _ =>
    rfl).mpr ?_
  intro v r hv hr _ _
  have hinvite :
      definedNode.store.get (execInviteKey noToken.1) =
        some (encodeExecInviteRecord (ascii "c") [] 0) := by
    decide
  have hrecord :
      decodeExecInviteRecord (encodeExecInviteRecord (ascii "c") [] 0) =
        .ok ⟨ascii "c", [], 0⟩ := by
    decide
  cases hinvite.symm.trans hv
  cases hrecord.symm.trans hr
  have hdelivers : ∀ {kind : Bytes} {fields}, kind.length ≤ maxFieldLen → quietDraw.Delivers
      quietSurroundings.marshal kind (Text.hexEncode (List.replicate 16 0)) peerP.1 fields :=
    fun hkind => ⟨⟨_, rfl⟩, hkind, _, rfl⟩
  exact ⟨Text.hexEncode (List.replicate 16 0), beBytes 2 1 ++ (ascii "n" ++ ascii "t"), ascii "n",
    ascii "t", rfl, by decide, by decide, hdelivers (by decide), hdelivers (by decide),
    fun _ => hdelivers (by decide)⟩

/-- The command was linked to a group and never defined: the redemption fails, and the
invite is gone. -/
theorem redemption_lost :
    (applyConsumeExecInvite {} quietSurroundings noToken.1 peerP.1).outcome undefinedNode =
        .error (.wrap (.execInviteCommandNotFound (ascii "c")) .notFound) ∧
      undefinedNode.store.get (execInviteKey noToken.1) =
        some (encodeExecInviteRecord (ascii "c") [] 0) ∧
      expired ⟨ascii "c", [], 0⟩ 0 = false ∧
      ((applyConsumeExecInvite {} quietSurroundings noToken.1 peerP.1).final
        undefinedNode).store.get
        (execInviteKey noToken.1) = none := by
  refine ⟨?_, ?_, ?_, ?_⟩ <;> decide

end KvRaft.Daemon
