import KvRaft.Kvfsm.Apply
import KvRaft.Lib.Batch

/-! # What an entry writes

`FSM.Apply` makes its checks, then writes. `plan` names the writes that an entry performs on a
store; `apply_store` says that applying the entry is performing them. Everything later results need
to know about the effect of an entry is read off `plan`, and an entry whose checks come out alike on
two stores (`SameChecks`) writes the
same on both. -/

namespace KvRaft.Kvfsm

open Bytes Shmevent Write

/-! ## Plans -/

def planSet (s : Store) (key value : Bytes) : List (Write Bytes Bytes) :=
  match checkSystemListCap s key, checkGroupNameUnique s key value,
    preserveCommandSpec s key value with
  | .ok (), .ok (), .ok value => [.set key value]
  | _, _, _ => []

def planConfirm (s : Store) (key value : Bytes) : List (Write Bytes Bytes) :=
  match s.get key, checkSystemListCap s value with
  | some v, .ok () => [.set value v, .del key]
  | _, _ => []

/-- The keys of the relations with the group, among some relation records. -/
def matchingKeys (parse : Bytes → Except Err (Bytes × Bytes)) (groupID : Bytes) :
    List (Bytes × Bytes) → Except Err (List Bytes)
  | [] => .ok []
  | m :: ms =>
    match parse m.1 with
    | .error e => .error e
    | .ok (_, g) =>
      (matchingKeys parse groupID ms).map fun ks => if g = groupID then m.1 :: ks else ks

def cascadeKeys (s : Store) (key : Bytes) : Except Err (List Bytes) :=
  match systemKind key with
  | none => .error .cascadeNotSystemKey
  | some kind =>
    let id := key.drop systemKeyPrefixLen
    if kind = kindCommand then do
      let p ← groupCommandKey id []
      return (s.scanPrefix p 0).map Prod.fst ++ [key]
    else if kind = kindGroup then do
      let cs ← matchingKeys parseGroupCommandKey id (s.scanPrefix allGroupCommandsPrefix 0)
      let ps ← matchingKeys parsePeerGroupKey id (s.scanPrefix allPeerGroupsPrefix 0)
      return cs ++ (ps ++ [key])
    else .error (.cascadeUnsupportedKind kind)

def planCascadeDelete (s : Store) (key : Bytes) : List (Write Bytes Bytes) :=
  match cascadeKeys s key with
  | .ok ks => ks.map .del
  | .error _ => []

def planConsumeInvite (s : Store) (key : Bytes) : List (Write Bytes Bytes) :=
  if (s.get key).isSome then [.del key] else []

def planConsumeExecInvite (s : Store) (appendedAt : Int) (key value : Bytes) :
    List (Write Bytes Bytes) :=
  match s.get key with
  | none => []
  | some v =>
    match decodeExecInviteRecord v with
    | .error _ => []
    | .ok r =>
      if expired r appendedAt then [.del key]
      else
        match isPermittedForCommand s r.commandID value with
        | .ok true => [.del key]
        | _ => []

/-- The two grants that come with a request for the default public command. -/
def planGrant (authorPeerID : Bytes) : Except Err (List (Write Bytes Bytes)) := do
  let channel ← peerGroupKey authorPeerID reservedGroupChannel
  let relay ← peerGroupKey authorPeerID reservedGroupRelay
  return [.set channel [], .set relay []]

def planAppendCommandRequest (s : Store) (key value : Bytes) : List (Write Bytes Bytes) :=
  match decodeCommandRequestApplyPayload value, Logrecord.parseKey key with
  | .ok (authorPeerID, recordValue), .ok k =>
    match parseCommandRequestLogKind k.kind with
    | none => []
    | some commandID =>
      match isPermittedForCommand s commandID authorPeerID with
      | .ok true =>
        if commandID = defaultPublicCommandID then
          match planGrant authorPeerID with
          | .ok ws => .set key recordValue :: ws
          | .error _ => []
        else [.set key recordValue]
      | _ => []
  | _, _ => []

def planTxnOp (o : TxnOpSpec) : List (Write Bytes Bytes) :=
  if o.isCompare then [] else if o.op = txnOpSet then [.set o.key o.value] else [.del o.key]

def planTxn (s : Store) (value : Bytes) : List (Write Bytes Bytes) :=
  match decodeTxnPayload value with
  | .error _ => []
  | .ok ops =>
    match checkTxnKinds 0 ops, checkTxnCompares s 0 ops with
    | .ok (), .ok () => ops.flatMap planTxnOp
    | _, _ => []

def plan (s : Store) (l : Log) : List (Write Bytes Bytes) :=
  match decodeCommand l.data with
  | .error _ => []
  | .ok ⟨op, key, value⟩ =>
    match op with
    | .set => planSet s key value
    | .del => [.del key]
    | .confirm => planConfirm s key value
    | .cascadeDelete => planCascadeDelete s key
    | .consumeInvite => planConsumeInvite s key
    | .consumeExecInvite => planConsumeExecInvite s l.appendedAt key value
    | .appendCommandRequest => planAppendCommandRequest s key value
    | .txn => planTxn s value
    | .unknown _ _ => []

/-- The state machine as a machine that decides, then writes. -/
def fsm : Machine Bytes Bytes Log := ⟨plan⟩

/-! ## Each operation performs its plan -/

theorem committed_store (s : Store) (fn : Store → Except Err Store) :
    (committed s fn).2 = (match fn s with | .ok s' => s' | .error _ => s) := by
  unfold committed Store.withTx
  cases fn s <;> rfl

theorem applySet_store (s : Store) (key value : Bytes) :
    (applySet s key value).2 = perform s (planSet s key value) := by
  unfold applySet planSet
  cases checkSystemListCap s key with
  | error e => rfl
  | ok _ =>
    cases checkGroupNameUnique s key value with
    | error e => rfl
    | ok _ => cases preserveCommandSpec s key value <;> rfl

theorem applyConfirm_store (s : Store) (key value : Bytes) :
    (applyConfirm s key value).2 = perform s (planConfirm s key value) := by
  unfold applyConfirm planConfirm Store.get!
  cases s.get key with
  | none => rfl
  | some v => cases checkSystemListCap s value <;> rfl

theorem applyConsumeInvite_store (s : Store) (key : Bytes) :
    (applyConsumeInvite s key).2 = perform s (planConsumeInvite s key) := by
  unfold applyConsumeInvite planConsumeInvite Store.get!
  cases s.get key <;> rfl

theorem applyConsumeExecInvite_store (s : Store) (appendedAt : Int) (key value : Bytes) :
    (applyConsumeExecInvite s appendedAt key value).2 =
      perform s (planConsumeExecInvite s appendedAt key value) := by
  unfold applyConsumeExecInvite planConsumeExecInvite Store.get!
  cases s.get key with
  | none => rfl
  | some v =>
    cases hr : decodeExecInviteRecord v with
    | error e => simp only [hr]; rfl
    | ok r =>
      simp only [hr]
      split_ifs
      · rfl
      · rcases isPermittedForCommand s r.commandID value with e | b
        · rfl
        · cases b <;> rfl

theorem grantChannelRelayAccess_eq (s : Store) (peerID : Bytes) :
    grantChannelRelayAccess s peerID = (planGrant peerID).map (perform s) := by
  unfold grantChannelRelayAccess planGrant
  cases peerGroupKey peerID reservedGroupChannel with
  | error e => rfl
  | ok channel => cases peerGroupKey peerID reservedGroupRelay <;> rfl

theorem checkSystemListCap_logKey {key : Bytes} {k : Logrecord.ParsedKey}
    (h : Logrecord.parseKey key = .ok k) (s : Store) : checkSystemListCap s key = .ok () := by
  obtain ⟨-, -, rest, -, rfl⟩ := Logrecord.parseKey_ok h
  rfl

theorem applyAppendCommandRequest_store (s : Store) (key value : Bytes) :
    (applyAppendCommandRequest s key value).2 =
      perform s (planAppendCommandRequest s key value) := by
  unfold applyAppendCommandRequest planAppendCommandRequest
  rcases decodeCommandRequestApplyPayload value with e | ⟨author, record⟩
  · rfl
  rcases hk : Logrecord.parseKey key with e | k
  · rfl
  rcases hc : parseCommandRequestLogKind k.kind with _ | commandID <;> simp only [hc]
  · rfl
  rcases isPermittedForCommand s commandID author with e | b
  · rfl
  cases b with
  | false => rfl
  | true =>
    simp only [checkSystemListCap_logKey hk]
    split_ifs
    · rw [committed_store]
      simp only [grantChannelRelayAccess_eq]
      cases planGrant author <;> rfl
    · rfl

theorem runTxnOp_eq (s : Store) (o : TxnOpSpec) : runTxnOp s o = perform s (planTxnOp o) := by
  unfold runTxnOp planTxnOp
  split_ifs <;> rfl

theorem foldl_runTxnOp (ops : List TxnOpSpec) (s : Store) :
    ops.foldl runTxnOp s = perform s (ops.flatMap planTxnOp) := by
  induction ops generalizing s with
  | nil => rfl
  | cons o ops ih => rw [List.foldl_cons, ih, List.flatMap_cons, perform_append, runTxnOp_eq]

theorem applyTxn_store (s : Store) (value : Bytes) :
    (applyTxn s value).2 = perform s (planTxn s value) := by
  unfold applyTxn planTxn
  rcases decodeTxnPayload value with e | ops
  · rfl
  simp only
  rcases checkTxnKinds 0 ops with e | _
  · rfl
  rcases checkTxnCompares s 0 ops with e | _
  · rfl
  exact foldl_runTxnOp ops s

variable {s : Store} {ks : List Bytes}

theorem mem_planSet {key value x v : Bytes} (h : .set x v ∈ planSet s key value) :
    x = key ∧ checkGroupNameUnique s key value = .ok () ∧
      preserveCommandSpec s key value = .ok v := by
  unfold planSet at h
  split at h
  · rename_i hcap hname hspec
    cases List.mem_singleton.mp h
    exact ⟨rfl, hname, hspec⟩
  · cases h

/-! ## Cascades -/

theorem deleteMatching_eq (parse : Bytes → Except Err (Bytes × Bytes)) (groupID : Bytes)
    (ms : List (Bytes × Bytes)) (s : Store) : deleteMatching parse groupID s ms =
      (matchingKeys parse groupID ms).map fun ks => perform s (ks.map .del) := by
  induction ms generalizing s with
  | nil => rfl
  | cons m ms ih =>
    rw [deleteMatching, matchingKeys]
    rcases parse m.1 with e | ⟨i, g⟩
    · rfl
    simp only [ih]
    rcases matchingKeys parse groupID ms with e | ks
    · rfl
    simp only [Except.map]
    split_ifs <;> rfl

theorem mem_matchingKeys {parse : Bytes → Except Err (Bytes × Bytes)} {groupID : Bytes}
    {ms : List (Bytes × Bytes)} (h : matchingKeys parse groupID ms = .ok ks)
    {k : Bytes} : k ∈ ks ↔ ∃ id, k ∈ ms.map Prod.fst ∧ parse k = .ok (id, groupID) := by
  induction ms generalizing ks with
  | nil =>
    cases h
    simp
  | cons m ms ih =>
    rw [matchingKeys] at h
    rcases hp : parse m.1 with e | ⟨i, g⟩ <;> simp only [hp] at h
    · cases h
    rcases hm : matchingKeys parse groupID ms with e | ks' <;> simp only [hm, Except.map] at h
    · cases h
    cases h
    have hrest := ih hm
    have hhead : k = m.1 → (parse k = .ok (i, g)) := by
      rintro rfl
      exact hp
    split_ifs with hg
    · rw [List.mem_cons, hrest, List.map_cons]
      grind
    · rw [hrest, List.map_cons]
      grind

theorem mem_of_matchingKeys {parse : Bytes → Except Err (Bytes × Bytes)} {groupID : Bytes}
    {ms : List (Bytes × Bytes)} (h : matchingKeys parse groupID ms = .ok ks) :
    ∀ k ∈ ks, k ∈ ms.map Prod.fst := by
  intro k hk
  obtain ⟨-, hmem, -⟩ := (mem_matchingKeys h).mp hk
  exact hmem

theorem scanPrefix_peerGroups_perform {id : Bytes}
    (h : matchingKeys parseGroupCommandKey id (s.scanPrefix allGroupCommandsPrefix 0) = .ok ks) :
    Store.scanPrefix (perform s (ks.map .del)) allPeerGroupsPrefix 0 =
      s.scanPrefix allPeerGroupsPrefix 0 := by
  refine Store.scanPrefix_congr 0 fun k hk => get_perform_of_not_written s fun w hw => ?_
  obtain ⟨k', hk', rfl⟩ := List.mem_map.mp hw
  obtain ⟨⟨k'', v⟩, hmem, rfl⟩ := List.mem_map.mp (mem_of_matchingKeys h k' hk')
  obtain ⟨⟨r, rfl⟩, -⟩ := Store.mem_scanPrefix.mp hmem
  obtain ⟨r', rfl⟩ := hk
  -- the kind bytes differ
  simp [allGroupCommandsPrefix, allPeerGroupsPrefix, systemKey, Write.key, kindPeerGroup,
    kindGroupCommand]

theorem foldl_delete (ms : List (Bytes × Bytes)) (s : Store) :
    ms.foldl (fun t m => t.delete m.1) s = perform s ((ms.map Prod.fst).map .del) := by
  rw [perform, List.foldl_map, List.foldl_map]
  rfl

theorem applyCascadeDelete_eq (s : Store) (key : Bytes) :
    applyCascadeDelete s key = (cascadeKeys s key).map fun ks => perform s (ks.map .del) := by
  unfold applyCascadeDelete cascadeKeys
  rcases systemKind key with _ | kind
  · rfl
  simp only
  split_ifs
  · rcases groupCommandKey (key.drop systemKeyPrefixLen) [] with e | p
    · rfl
    simp only [bind, Except.bind, pure, Except.pure, Except.map, foldl_delete, List.map_append,
      perform_append]
    rfl
  · simp only [deleteRelationsByGroupID, deleteMatching_eq]
    rcases hc : matchingKeys parseGroupCommandKey (key.drop systemKeyPrefixLen)
      (s.scanPrefix allGroupCommandsPrefix 0) with e | cs
    · rfl
    simp only [Except.map, bind, Except.bind, scanPrefix_peerGroups_perform hc]
    rcases matchingKeys parsePeerGroupKey (key.drop systemKeyPrefixLen)
      (s.scanPrefix allPeerGroupsPrefix 0) with e | ps
    · rfl
    simp only [pure, Except.pure, List.map_append, perform_append]
    rfl
  · rfl

theorem cascadeDelete_store (s : Store) (key : Bytes) :
    (committed s fun tx => applyCascadeDelete tx key).2 = perform s (planCascadeDelete s key) := by
  rw [committed_store, planCascadeDelete, applyCascadeDelete_eq]
  cases cascadeKeys s key <;> rfl

/-! ## The state machine -/

/-- **Applying an entry performs its plan.** -/
theorem apply_store (s : Store) (l : Log) : (apply s l).2 = perform s (plan s l) := by
  unfold apply plan
  rcases decodeCommand l.data with e | ⟨op, key, value⟩
  · rfl
  cases op with
  | set => exact applySet_store s key value
  | del => rfl
  | confirm => exact applyConfirm_store s key value
  | cascadeDelete => exact cascadeDelete_store s key
  | consumeInvite => exact applyConsumeInvite_store s key
  | consumeExecInvite => exact applyConsumeExecInvite_store s l.appendedAt key value
  | appendCommandRequest => exact applyAppendCommandRequest_store s key value
  | txn => exact applyTxn_store s value
  | unknown b h => rfl

theorem applyAll_eq_run (s : Store) (log : List Log) : applyAll s log = fsm.run s log :=
  congrArg (fun f => log.foldl f s) (funext fun s => funext fun l => apply_store s l)

theorem applyAll_append (s : Store) (l₁ l₂ : List Log) :
    applyAll s (l₁ ++ l₂) = applyAll (applyAll s l₁) l₂ := List.foldl_append ..

theorem applyAll_snoc (s : Store) (log : List Log) (l : Log) :
    applyAll s (log ++ [l]) = (apply (applyAll s log) l).2 := applyAll_append s log [l]

/-! ## Checks that come out alike -/

/-- Every check that `Apply` makes for the entry has the same outcome on both stores: it reads the
same pending record or invite, finds the same relations, meets the same caps, names and specs, the
same permission and the same preconditions. -/
def SameChecks (s s' : Store) (l : Log) : Prop :=
  match decodeCommand l.data with
  | .error _ => True
  | .ok ⟨op, key, value⟩ =>
    match op with
    | .set =>
      checkSystemListCap s key = checkSystemListCap s' key ∧
        checkGroupNameUnique s key value = checkGroupNameUnique s' key value ∧
        preserveCommandSpec s key value = preserveCommandSpec s' key value
    | .del => True
    | .confirm => s.get key = s'.get key ∧ checkSystemListCap s value = checkSystemListCap s' value
    | .cascadeDelete => cascadeKeys s key = cascadeKeys s' key
    | .consumeInvite => (s.get key).isSome = (s'.get key).isSome
    | .consumeExecInvite =>
      s.get key = s'.get key ∧
        ∀ v r, s.get key = some v → decodeExecInviteRecord v = .ok r →
          isPermittedForCommand s r.commandID value = isPermittedForCommand s' r.commandID value
    | .appendCommandRequest =>
      ∀ author record k commandID, decodeCommandRequestApplyPayload value = .ok (author, record) →
        Logrecord.parseKey key = .ok k → parseCommandRequestLogKind k.kind = some commandID →
        isPermittedForCommand s commandID author = isPermittedForCommand s' commandID author
    | .txn =>
      ∀ ops, decodeTxnPayload value = .ok ops → checkTxnCompares s 0 ops = checkTxnCompares s' 0 ops
    | .unknown _ _ => True

theorem plan_congr {s' : Store} {l : Log} (h : SameChecks s s' l) : plan s l = plan s' l := by
  revert h
  unfold SameChecks plan
  rcases decodeCommand l.data with e | ⟨op, key, value⟩ <;> intro h
  · rfl
  cases op with
  | set =>
    obtain ⟨hcap, hname, hspec⟩ := h
    simp only [planSet, hcap, hname, hspec]
  | del => rfl
  | confirm =>
    obtain ⟨hget, hcap⟩ := h
    simp only [planConfirm, hget, hcap]
  | cascadeDelete =>
    have h : cascadeKeys s key = cascadeKeys s' key := h
    simp only [planCascadeDelete, h]
  | consumeInvite =>
    have h : (s.get key).isSome = (s'.get key).isSome := h
    simp only [planConsumeInvite, h]
  | consumeExecInvite =>
    obtain ⟨hg, hp⟩ := h
    simp only [planConsumeExecInvite, ← hg]
    rcases hv : s.get key with _ | v
    · rfl
    rcases hr : decodeExecInviteRecord v with e | r <;> simp only [hr]
    rw [hp v r hv hr]
  | appendCommandRequest =>
    simp only [planAppendCommandRequest]
    rcases hd : decodeCommandRequestApplyPayload value with e | ⟨author, record⟩
    · rfl
    rcases hk : Logrecord.parseKey key with e | k
    · rfl
    rcases hc : parseCommandRequestLogKind k.kind with _ | commandID <;> simp only [hc]
    rw [h author record k commandID hd hk hc]
  | txn =>
    simp only [planTxn]
    rcases hd : decodeTxnPayload value with e | ops
    · rfl
    simp only [h ops hd]
  | unknown b h => rfl

/-- An entry that checks nothing: a delete, a write outside the system keys, a transaction without
preconditions, or bytes that are refused on every store. -/
def Plain (l : Log) : Prop :=
  match decodeCommand l.data with
  | .error _ => True
  | .ok ⟨op, key, value⟩ =>
    match op with
    | .set => systemKind key = none
    | .del => True
    | .txn => ∀ ops, decodeTxnPayload value = .ok ops → ∀ o ∈ ops, o.isCompare = false
    | .unknown _ _ => True
    | _ => False

theorem checkTxnCompares_of_no_compare {ops : List TxnOpSpec} (h : ∀ o ∈ ops, o.isCompare = false)
    (s : Store) (i : Nat) : checkTxnCompares s i ops = .ok () := by
  induction ops generalizing i with
  | nil => rfl
  | cons o ops ih =>
    simp only [checkTxnCompares, h o List.mem_cons_self, Bool.not_false, if_true]
    exact ih (fun o' ho' => h o' (List.mem_cons_of_mem _ ho')) (i + 1)

theorem sameChecks_of_plain {l : Log} (h : Plain l) (s s' : Store) : SameChecks s s' l := by
  revert h
  unfold Plain SameChecks
  rcases decodeCommand l.data with e | ⟨op, key, value⟩ <;> intro h
  · trivial
  cases op with
  | set =>
    have h : systemKind key = none := h
    simp [checkSystemListCap, checkGroupNameUnique, preserveCommandSpec, h]
  | txn =>
    intro ops hd
    rw [checkTxnCompares_of_no_compare (h ops hd), checkTxnCompares_of_no_compare (h ops hd)]
  | del => trivial
  | unknown b h => trivial
  | _ => exact h.elim

end KvRaft.Kvfsm
