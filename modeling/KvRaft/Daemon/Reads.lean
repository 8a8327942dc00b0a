import KvRaft.Daemon.Dispatch

/-! # What a peer without standing can read

The two reads open to a remote peer without standing are confined to one kind of log record, and the
kinds it may name are those of the requests it may make and of the executions it takes part in. So
two stores that agree on these records, and on the catalog that the permission rests on, cannot be
told apart by reading. -/

namespace KvRaft.Daemon

open Bytes Shmevent Kvfsm

/-! ## Kinds -/

variable {key kind p : Bytes}

theorem logKindOfBound_eq_some :
    logKindOfBound key = some kind ↔
      kind.length ≤ Logrecord.maxFieldLen ∧ Logrecord.kindPrefix kind <+: key := by
  constructor
  · intro h
    unfold logKindOfBound at h
    split at h
    · rename_i p hi lo rest
      split_ifs at h with hp
      obtain ⟨⟨x, r⟩, hread, hx⟩ := Option.map_eq_some_iff.mp h
      obtain rfl : x = kind := hx
      obtain ⟨hlen, rfl⟩ := readBytes_eq_some hread
      have hlt := beNat_lt [hi, lo]
      have hbytes : beBytes 2 x.length = [hi, lo] := by
        rw [hlen]
        exact beBytes_beNat [hi, lo]
      refine ⟨?_, r, ?_⟩
      · simp only [List.length_cons, List.length_nil] at hlt
        simp only [Logrecord.maxFieldLen]
        omega
      · rw [not_not] at hp
        simp [Logrecord.kindPrefix, hbytes, hp]
    · cases h
  · rintro ⟨hlen, r, rfl⟩
    simp only [Logrecord.maxFieldLen] at hlen
    have hn : beNat (beBytes 2 kind.length) = kind.length := beNat_beBytes (by omega)
    simp only [Logrecord.kindPrefix, beBytes_two, List.cons_append, List.nil_append] at hn ⊢
    simp only [logKindOfBound, hn, ne_eq, not_true, if_false, readBytes_append, Option.map_some]

theorem logKindOfBound_of_parseKey {k : Logrecord.ParsedKey}
    (h : Logrecord.parseKey key = .ok k) : logKindOfBound key = some k.kind := by
  obtain ⟨hk, -, rest, -, rfl⟩ := Logrecord.parseKey_ok h
  refine logKindOfBound_eq_some.mpr ⟨hk, ?_⟩
  rw [Logrecord.kindPrefix, Logrecord.kindUnitPrefix]
  exact ⟨beBytes 2 k.unitID.length ++ k.unitID ++ rest, by simp⟩

theorem logKindOfBound_of_between {start stop : Bytes}
    (hstart : logKindOfBound start = some kind) (hstop : logKindOfBound stop = some kind)
    (hkey : Store.inRange start stop key = true) : logKindOfBound key = some kind := by
  rw [logKindOfBound_eq_some] at hstart hstop ⊢
  simp only [Store.inRange, Bool.and_eq_true, Bool.not_eq_true', decide_eq_false_iff_not] at hkey
  exact ⟨hstart.1, List.isPrefix_of_between hstart.2 hstop.2 hkey.1 hkey.2⟩

theorem cutPrefix_eq_some {b rest : Bytes} : cutPrefix p b = some rest ↔ b = p ++ rest := by
  unfold cutPrefix
  constructor
  · intro h
    split_ifs at h with hp
    obtain ⟨r, rfl⟩ := List.isPrefixOf_iff_prefix.mp hp
    cases h
    rw [List.drop_left]
  · rintro rfl
    rw [if_pos (List.isPrefixOf_iff_prefix.mpr (List.prefix_append _ _)), List.drop_left]

/-! ## The permission -/

def SameCatalog (s s' : Store) : Prop :=
  ∀ kind ∈ [kindGroup, kindGroupCommand, kindPeerGroup], ∀ id,
    s.get (systemKey kind catalogStatusPlaceholder id) =
      s'.get (systemKey kind catalogStatusPlaceholder id)

section Catalog

variable {s s' : Store} (h : SameCatalog s s')
include h

theorem isPublicGroup_congr (groupID : Bytes) :
    isPublicGroup s groupID = isPublicGroup s' groupID := by
  unfold isPublicGroup groupKey
  rw [h kindGroup (by simp) groupID]

theorem get_peerGroupKey_congr {peerID groupID key : Bytes}
    (hkey : peerGroupKey peerID groupID = .ok key) : s.get key = s'.get key := by
  obtain ⟨-, rfl⟩ := relationKey_eq_ok hkey
  exact h kindPeerGroup (by simp) _

theorem anyGroupPermits_congr (peerID : Bytes) :
    ∀ ms, anyGroupPermits s peerID ms = anyGroupPermits s' peerID ms
  | [] => rfl
  | m :: ms => by
    unfold anyGroupPermits
    rcases parseGroupCommandKey m.1 with e | ⟨c, g⟩
    · rfl
    · dsimp only
      rcases hk : peerGroupKey peerID g with e | key
      · simp only [isPublicGroup_congr h]
      · simp only [isPublicGroup_congr h, get_peerGroupKey_congr h hk,
          anyGroupPermits_congr peerID ms]

theorem isPermittedForCommand_congr (commandID peerID : Bytes) :
    isPermittedForCommand s commandID peerID = isPermittedForCommand s' commandID peerID := by
  unfold isPermittedForCommand
  rcases hk : groupCommandKey commandID [] with e | p
  · rfl
  · obtain ⟨-, rfl⟩ := relationKey_eq_ok hk
    have hscan : ∀ k, systemKey kindGroupCommand catalogStatusPlaceholder
        (beBytes 2 commandID.length ++ (commandID ++ [])) <+: k → s.get k = s'.get k := by
      rintro k ⟨r, rfl⟩
      exact h kindGroupCommand (by simp) _
    simp only [Store.scanPrefix_congr 0 hscan, anyGroupPermits_congr h]

theorem isInGroup_congr (id groupID : Bytes) :
    isInGroup s id groupID = isInGroup s' id groupID := by
  unfold isInGroup
  rcases hk : peerGroupKey id groupID with e | key
  · rfl
  · simp only [get_peerGroupKey_congr h hk]

theorem isAuthorizedForGatedAccess_congr (self id groupID : Bytes) :
    isAuthorizedForGatedAccess s self id groupID =
      isAuthorizedForGatedAccess s' self id groupID := by
  unfold isAuthorizedForGatedAccess
  rw [isInGroup_congr h, isInGroup_congr h, isInGroup_congr h]

theorem isCommandLogReadableKind_congr (kind callerID : Bytes) :
    isCommandLogReadableKind s kind callerID = isCommandLogReadableKind s' kind callerID := by
  unfold isCommandLogReadableKind
  cases parseCommandRequestLogKind kind <;> simp only [isPermittedForCommand_congr h]

theorem isCommandLogCarveOut_congr (m : Event) (callerID : Bytes) :
    isCommandLogCarveOut s m callerID = isCommandLogCarveOut s' m callerID := by
  unfold isCommandLogCarveOut
  cases m <;> simp only [isCommandLogReadableKind_congr h]

end Catalog

/-! ## The property -/

/-- The kinds of log record that concern `p`: execution logs, its own execution index, and the
requests for the commands it may run. -/
def Visible (p : Bytes) (s : Store) (kind : Bytes) : Prop :=
  kind = commandExecLogKind ∨ kind = commandExecIndexKind p ∨
    ∃ commandID, kind = commandRequestLogKind commandID ∧
      isPermittedForCommand s commandID p = .ok true

/-- The two stores agree on the catalog and on every log record of a kind that concerns `p`. -/
structure AgreeFor (p : Bytes) (s s' : Store) : Prop where
  catalog : SameCatalog s s'
  records : ∀ key kind, logKindOfBound key = some kind → Visible p s kind → s.get key = s'.get key

theorem visible_of_readable {s : Store}
    (h : isCommandLogReadableKind s kind p = true) : Visible p s kind := by
  unfold isCommandLogReadableKind at h
  split_ifs at h with hlog
  · exact .inl hlog
  · rcases hreq : parseCommandRequestLogKind kind with _ | commandID
    · simp only [hreq] at h
      rcases hidx : parseCommandExecIndexKind kind with _ | peerID
      · simp [hidx] at h
      · obtain rfl : peerID = p := by simpa [hidx] using h
        exact .inr (.inl (cutPrefix_eq_some.mp hidx))
    · simp only [hreq] at h
      rcases hperm : isPermittedForCommand s commandID p with e | b
      · simp [hperm] at h
      · obtain rfl : b = true := by simpa [hperm] using h
        exact .inr (.inr ⟨commandID, cutPrefix_eq_some.mp hreq, hperm⟩)

inductive IsRead : Event → Prop
  | byKey (key value : Data) : IsRead (.getFieldByKey key value)
  | range (start stop key value : Data) : IsRead (.listRange start stop key value)

theorem IsRead.checks {m : Event} (h : IsRead m) :
    refusedToRemote m = none ∧ requiresSignature m = true ∧ needsNoStanding m = false := by
  cases h <;> exact ⟨rfl, rfl, rfl⟩

theorem run_handleGet (key : Bytes) (n : Node) :
    handleGet key n = match n.store.get! key with
      | .ok v => .ok v n
      | .error e => .error e n := by
  unfold handleGet
  change (ofExcept (n.store.get! key) : M Bytes) n = _
  cases n.store.get! key <;> rfl

theorem dispatch_read_congr {n : Node} {s' : Store} {m : Event}
    (hagree : AgreeFor p n.store s') (hm : IsRead m)
    (hcarve : isCommandLogCarveOut n.store m p = true) (env : Env) (caller : CallerIdentity)
    (id : UInt16) :
    (dispatch env caller id m).outcome n =
      (dispatch env caller id m).outcome { n with store := s' } := by
  cases hm with
  | byKey key value =>
    unfold isCommandLogCarveOut at hcarve
    rcases hkind : logKindOfBound key.1 with _ | kind
    · simp [hkind] at hcarve
    · simp only [hkind] at hcarve
      have hget : n.store.get! key.1 = s'.get! key.1 := by
        unfold Store.get!
        rw [hagree.records key.1 kind hkind (visible_of_readable hcarve)]
      simp only [EStateM.outcome, dispatch, bind, EStateM.bind, run_handleGet, hget]
      rcases s'.get! key.1 with e | v
      · rfl
      · dsimp only
        unfold setData
        cases Data.ofBytes v <;> rfl
  | range start stop key value =>
    unfold isCommandLogCarveOut at hcarve
    rcases hstart : logKindOfBound start.1 with _ | kind
    · simp [hstart] at hcarve
    rcases hstop : logKindOfBound stop.1 with _ | kind'
    · simp [hstart, hstop] at hcarve
    simp only [hstart, hstop, Bool.and_eq_true, decide_eq_true_eq] at hcarve
    obtain ⟨rfl, hread⟩ := hcarve
    have hscan : n.store.scanRange start.1 stop.1 1 = s'.scanRange start.1 stop.1 1 :=
      Store.scanRange_congr 1 fun k hk =>
        hagree.records k kind (logKindOfBound_of_between hstart hstop hk)
          (visible_of_readable hread)
    simp only [dispatch, listRange, EStateM.outcome_get_bind, hscan]
    rcases s'.scanRange start.1 stop.1 1 with _ | ⟨⟨k, v⟩, rest⟩
    · rfl
    · dsimp only
      unfold setData
      cases Data.ofBytes k <;> cases Data.ofBytes v <;> rfl

/-- A stranger's read has the same answer on every two stores that agree on the catalog and on the
records that concern the stranger. -/
theorem reads_noninterference {p : Bytes} {n : Node} {s' : Store} {r : Request}
    {caller : CallerIdentity} (hcaller : caller.remotePeer = some p)
    (hstanding : isAuthorizedForGatedAccess n.store n.peerID p reservedGroupRemote = false)
    (hagree : AgreeFor p n.store s') (hread : IsRead r.msg.body) (env : Env) :
    (handleShmEvent env r caller).outcome n =
      (handleShmEvent env r caller).outcome { n with store := s' } := by
  obtain ⟨hrefused, hsign, hopen⟩ := hread.checks
  have hrefused : checkRefused caller r.msg.body = pure () := by
    simp only [checkRefused, hcaller, hrefused]
  have hstanding' : isAuthorizedForGatedAccess s' n.peerID p reservedGroupRemote = false := by
    rwa [← isAuthorizedForGatedAccess_congr hagree.catalog]
  have hcarve' := isCommandLogCarveOut_congr hagree.catalog r.msg.body p
  simp only [handleShmEvent, hrefused, pure_bind, hsign, if_true]
  rcases env.verify caller.verifyPub r.msg r.crc r.sig with e | ⟨⟩
  · rfl
  change (checkStanding caller r.msg.body >>= fun _ => _).outcome n =
    (checkStanding caller r.msg.body >>= fun _ => _).outcome { n with store := s' }
  simp only [EStateM.outcome_bind, outcome_checkStanding hcaller, final_checkStanding,
    hopen, hstanding, hstanding', ← hcarve', Bool.false_or]
  cases hcarve : isCommandLogCarveOut n.store r.msg.body p with
  | false => rfl
  | true => exact dispatch_read_congr hagree hread hcarve env caller r.msg.id

theorem agreeFor_insert (s : Store) (value : Bytes)
    (hsys : key.head? ≠ some systemKeyPrefix) (hlog : key.head? ≠ some Logrecord.logKeyPrefix) :
    AgreeFor p s (s.insert key value) := by
  constructor
  · intro kind _ id
    have hne : systemKey kind catalogStatusPlaceholder id ≠ key := by
      rintro rfl
      exact hsys rfl
    rw [OrdMap.get_insert, if_neg hne]
  · intro k kind hkind _
    have hne : k ≠ key := by
      rintro rfl
      obtain ⟨r, hr⟩ := (logKindOfBound_eq_some.mp hkind).2
      exact hlog (by rw [← hr]; rfl)
    rw [OrdMap.get_insert, if_neg hne]

def strangerRead : Request where
  msg := ⟨7, .getFieldByKey ⟨Logrecord.kindPrefix commandExecLogKind, by decide⟩
    ⟨[], Data.length_nil_lt⟩⟩
  crc := 0
  sig := []

theorem reads_noninterference_secret :
    (OrdMap.empty : Store) ≠ OrdMap.empty.insert (ascii "secret") [1] ∧
      (handleShmEvent {} strangerRead ⟨[], some (ascii "p")⟩).outcome
          (Node.alone (ascii "l") OrdMap.empty) =
        (handleShmEvent {} strangerRead ⟨[], some (ascii "p")⟩).outcome
          (Node.alone (ascii "l") (OrdMap.empty.insert (ascii "secret") [1])) :=
  ⟨by decide,
    reads_noninterference (n := Node.alone (ascii "l") OrdMap.empty) (p := ascii "p")
      rfl (by decide)
      (agreeFor_insert _ _ (by decide) (by decide)) (.byKey _ _) {}⟩

end KvRaft.Daemon
