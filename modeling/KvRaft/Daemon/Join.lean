import KvRaft.Daemon.Bookkeeping

/-! # Join requests on a leader

`handleJoinStream` takes the joining peer's id from the request line and never compares it with the
peer at the other end of the stream. What a request does on a leader is stated as two functions of
the state before it: the configuration change it leads to (`joinChange`) and whether it lodges a
pending record (`Lodges`). From these follows when a request concerns nobody but its sender. -/

namespace KvRaft.Daemon

open Bytes Shmevent Kvfsm Encoding

/-! ## Lines that are read -/

theorem parseJoinLine_ok {line : Bytes} {r : JoinRequest} (h : parseJoinLine line = .ok r) :
    r.peerID ∈ Text.fields line ∧ r.addr ∈ Text.fields line ∧
      (r.inviteToken = [] ∨ ∃ hex ∈ Text.fields line, Text.hexDecode hex = some r.inviteToken) := by
  unfold parseJoinLine at h
  split at h
  · rename_i peerID addr hf
    cases h
    simp [hf]
  · rename_i peerID addr word hf
    rcases hsf : parseSuffrage word with e | sf <;> rw [hsf] at h
    · cases h
    · cases h
      simp [hf]
  · rename_i peerID addr word hex hf
    rcases hsf : parseSuffrage word with e | sf <;> rw [hsf] at h
    · cases h
    · unfold parseInviteToken at h
      rcases htoken : Text.hexDecode hex with _ | token <;> rw [htoken] at h
      · cases h
      · cases h
        exact ⟨by simp [hf], by simp [hf], .inr ⟨hex, by simp [hf], htoken⟩⟩
  · cases h

theorem parseJoinRequest_ok {stream : Bytes} {r : JoinRequest}
    (h : parseJoinRequest stream = .ok r) :
    ∃ line, Text.scan stream = .line line ∧ parseJoinLine line = .ok r := by
  unfold parseJoinRequest at h
  split at h
  · cases h
  · cases h
  · exact ⟨_, by assumption, h⟩

theorem length_parseJoinRequest {stream : Bytes} {r : JoinRequest}
    (h : parseJoinRequest stream = .ok r) :
    r.peerID.length < 65536 ∧ r.addr.length < 65536 ∧ r.inviteToken.length < 65536 := by
  obtain ⟨line, hscan, hline⟩ := parseJoinRequest_ok h
  obtain ⟨hpeer, haddr, htoken⟩ := parseJoinLine_ok hline
  have hlen : line.length < 65536 := Text.length_scan hscan
  refine ⟨lt_of_le_of_lt (Text.length_of_mem_fields hpeer) hlen,
    lt_of_le_of_lt (Text.length_of_mem_fields haddr) hlen, ?_⟩
  rcases htoken with htoken | ⟨hex, hmem, hhex⟩
  · rw [htoken]
    decide
  · exact lt_of_le_of_lt ((Text.length_hexDecode hhex).trans (Text.length_of_mem_fields hmem)) hlen

/-! ## Forwarded requests -/

def joinWords (r : JoinRequest) : List Bytes :=
  r.peerID :: r.addr :: suffrageWord r.suffrage ::
    if r.inviteToken = [] then [] else [Text.hexEncode r.inviteToken]

theorem joinRequestLine_eq (r : JoinRequest) :
    joinRequestLine r = Text.unwords (joinWords r) ++ [0x0A] := by
  unfold joinRequestLine joinWords
  split_ifs <;> simp [Text.unwords]

theorem isWord_suffrageWord (sf : Suffrage) : Text.IsWord (suffrageWord sf) := by
  cases sf <;> exact Text.isWord_of_visible (by decide) (List.forall_iff_forall_mem.mp (by decide))

theorem parseSuffrage_suffrageWord (sf : Suffrage) : parseSuffrage (suffrageWord sf) = .ok sf := by
  cases sf <;> rfl

theorem hexEncode_ne_nil {b : Bytes} (h : b ≠ []) : Text.hexEncode b ≠ [] := by
  obtain ⟨c, b, rfl⟩ := List.exists_cons_of_ne_nil h
  rw [Text.hexEncode_cons]
  exact List.cons_ne_nil _ _

section Line

variable {r : JoinRequest} (hpeer : Text.IsWord r.peerID) (haddr : Text.IsWord r.addr)
include hpeer haddr

theorem isWord_joinWords : ∀ w ∈ joinWords r, Text.IsWord w := by
  intro w hw
  simp only [joinWords, List.mem_cons] at hw
  rcases hw with rfl | rfl | rfl | hw
  · exact hpeer
  · exact haddr
  · exact isWord_suffrageWord _
  · split_ifs at hw with htoken
    · cases hw
    · rw [List.mem_singleton.mp hw]
      exact Text.isWord_of_visible (hexEncode_ne_nil htoken) fun c hc =>
        Text.isVisible_of_mem_hexEncode hc

theorem parseJoinLine_joinWords : parseJoinLine (Text.unwords (joinWords r)) = .ok r := by
  rw [parseJoinLine, Text.fields_unwords (isWord_joinWords hpeer haddr), joinWords]
  obtain ⟨peerID, addr, sf, token⟩ := r
  split_ifs with htoken
  · dsimp only at htoken ⊢
    rw [parseSuffrage_suffrageWord, htoken]
    rfl
  · dsimp only
    rw [parseSuffrage_suffrageWord, parseInviteToken, Text.hexDecode_hexEncode]
    rfl

theorem parseJoinRequest_joinRequestLine
    (hlen : (joinRequestLine r).length ≤ Text.maxScanTokenSize) :
    parseJoinRequest (joinRequestLine r) = .ok r := by
  rw [joinRequestLine_eq, List.length_append, List.length_singleton] at hlen
  rw [joinRequestLine_eq, parseJoinRequest, Text.scan_unwords (isWord_joinWords hpeer haddr) hlen]
  exact parseJoinLine_joinWords hpeer haddr

end Line

/-- A request that a node has read is read alike by the leader it is forwarded to, as far as its
line fits the leader's buffer. -/
theorem forwarded_join_preserved {stream : Bytes} {r : JoinRequest}
    (h : parseJoinRequest stream = .ok r)
    (hlen : (joinRequestLine r).length ≤ Text.maxScanTokenSize) :
    parseJoinRequest (joinRequestLine r) = .ok r := by
  obtain ⟨line, -, hline⟩ := parseJoinRequest_ok h
  obtain ⟨hpeer, haddr, -⟩ := parseJoinLine_ok hline
  exact parseJoinRequest_joinRequestLine (Text.isWord_of_mem_fields hpeer)
    (Text.isWord_of_mem_fields haddr) hlen

/-- A request with blanks, a carriage return and capital hex digits of its own. -/
theorem forwarded_join_preserved_token :
    parseJoinRequest (ascii "\tq  /ip4/1.2.3.4 learner AB\r\n") =
      .ok ⟨ascii "q", ascii "/ip4/1.2.3.4", .nonvoter, [0xAB]⟩ ∧
      parseJoinRequest (joinRequestLine ⟨ascii "q", ascii "/ip4/1.2.3.4", .nonvoter, [0xAB]⟩) =
        .ok ⟨ascii "q", ascii "/ip4/1.2.3.4", .nonvoter, [0xAB]⟩ := by
  have hread : parseJoinRequest (ascii "\tq  /ip4/1.2.3.4 learner AB\r\n") =
      .ok ⟨ascii "q", ascii "/ip4/1.2.3.4", .nonvoter, [0xAB]⟩ := by decide
  exact ⟨hread, forwarded_join_preserved hread (by decide)⟩

/-! ## The configuration -/

variable {f : Option Server → Server} {q : Bytes}

theorem filter_upsert_self (hf : ∀ o, (f o).id = q) :
    ∀ servers, (upsert q f servers).filter (·.id ≠ q) = servers.filter (·.id ≠ q)
  | [] => by simp [upsert, hf]
  | srv :: servers => by
    unfold upsert
    split_ifs with h
    · simp [hf, h]
    · simp only [List.filter_cons, filter_upsert_self hf servers]

theorem mem_upsert {srv : Server} :
    ∀ {servers : List Server}, srv ∈ upsert q f servers →
      srv ∈ servers ∨ srv = f none ∨ ∃ old ∈ servers, old.id = q ∧ srv = f (some old)
  | [], h => .inr (.inl (List.mem_singleton.mp h))
  | first :: servers, h => by
    unfold upsert at h
    split_ifs at h with hfirst
    · rcases List.mem_cons.mp h with rfl | h
      · exact .inr (.inr ⟨first, List.mem_cons_self .., hfirst, rfl⟩)
      · exact .inl (List.mem_cons_of_mem _ h)
    · rcases List.mem_cons.mp h with rfl | h
      · exact .inl (List.mem_cons_self ..)
      · rcases mem_upsert h with h | h | ⟨old, h, hold⟩
        · exact .inl (List.mem_cons_of_mem _ h)
        · exact .inr (.inl h)
        · exact .inr (.inr ⟨old, List.mem_cons_of_mem _ h, hold⟩)

theorem exists_mem_upsert (hf : ∀ o, (f o).id = q) (x : Bytes) :
    ∀ servers, (∃ srv ∈ upsert q f servers, srv.id = x) ↔ (∃ srv ∈ servers, srv.id = x) ∨ x = q
  | [] => by simp [upsert, hf, eq_comm]
  | srv :: servers => by
    unfold upsert
    split_ifs with h
    · simp only [List.exists_mem_cons_iff, hf, h]
      exact ⟨.inl, fun hx => hx.elim id fun hxq => .inl hxq.symm⟩
    · simp only [List.exists_mem_cons_iff, exists_mem_upsert hf x servers]
      exact or_assoc.symm

theorem filter_upsert_iff {p : Bytes} (hpq : q ≠ p)
    (hf : ∀ o, (f o).id = q) :
    ∀ servers, (upsert q f servers).filter (·.id ≠ p) = servers.filter (·.id ≠ p) ↔
      upsert q f servers = servers
  | [] => by simp [upsert, hf, hpq]
  | srv :: servers => by
    unfold upsert
    split_ifs with h
    · have hsrv : srv.id ≠ p := h ▸ hpq
      simp [hf, hpq, hsrv]
    · have ih := filter_upsert_iff hpq hf servers
      by_cases hsrv : srv.id = p
      · simpa [hsrv] using ih
      · simpa [hsrv] using ih

theorem nextConfiguration_addServer (q addr : Bytes) (sf : Suffrage) :
    ∃ f : Option Server → Server, (∀ o, (f o).id = q) ∧
      ∀ servers, nextConfiguration servers (addServer q addr sf) = upsert q f servers := by
  cases sf with
  | voter => exact ⟨fun _ => ⟨.voter, q, addr⟩, fun _ => rfl, fun _ => rfl⟩
  | nonvoter =>
    refine ⟨_, ?_, fun _ => rfl⟩
    intro o
    split <;> rfl

/-! ## What a request does -/

def inviteSuffrage (s : Store) (token : Bytes) : Option Suffrage :=
  match s.get (joinInviteKey token) with
  | none => none
  | some v =>
    match decodeJoinInviteRecord v with
    | .ok sf => some (suffrageOf sf)
    | .error _ => none

def consumeInviteEntry (token : Bytes) : Bytes :=
  encodeCommand .consumeInvite (joinInviteKey token) []

def joinMetadata (r : JoinRequest) : Bytes :=
  encodeClusterJoinMetadata r.addr
    (if r.suffrage = .nonvoter then suffrageLearner else suffrageVoter)

def lodgeEntry (r : JoinRequest) : Bytes :=
  encodeCommand .set (pendingJoinKey r.peerID) (joinMetadata r)

def joinChange (env : Env) (n : Node) (r : JoinRequest) : Option ConfigChange :=
  if r.inviteToken ≠ [] then
    if (env.applyFault (consumeInviteEntry r.inviteToken)).isSome then none
    else (inviteSuffrage n.store r.inviteToken).map (addServer r.peerID r.addr)
  else if n.requireConfirmForJoin then none
  else some (addServer r.peerID r.addr r.suffrage)

/-- Whether a request lodges a pending record: the list of pending requests has room for it. -/
def Lodges (env : Env) (n : Node) (r : JoinRequest) : Prop :=
  r.inviteToken = [] ∧ n.requireConfirmForJoin = true ∧ env.commits (lodgeEntry r) = true ∧
    checkSystemListCap n.store (pendingJoinKey r.peerID) = .ok ()

instance (env : Env) (n : Node) (r : JoinRequest) : Decidable (Lodges env n r) :=
  inferInstanceAs (Decidable (_ ∧ _ ∧ _ ∧ _))

def serversAfter (env : Env) (servers : List Server) : Option ConfigChange → List Server
  | none => servers
  | some c => if env.commitsConfig c then nextConfiguration servers c else servers

structure JoinEffect (env : Env) (r : JoinRequest) (n n' : Node) : Prop where
  servers : n'.servers = serversAfter env n.servers (joinChange env n r)
  pending : ∀ q, n'.store.get (pendingJoinKey q) =
    if Lodges env n r ∧ q = r.peerID then some (joinMetadata r) else n.store.get (pendingJoinKey q)

theorem final_consumeJoinInvite (env : Env) (token : Bytes) (n : Node) :
    (consumeJoinInvite env token).final n = (raftApply env (consumeInviteEntry token)).final n := by
  unfold consumeJoinInvite
  rw [EStateM.final_bind_of_pure, final_wrapping, consumeInviteEntry]
  intro res n
  split
  · rfl
  · rw [EStateM.final_bind_of_pure fun _ _ => rfl, final_wrapping, EStateM.final_ofExcept]

section Sizes

variable {r : JoinRequest} (hlen : r.peerID.length < 65536 ∧ r.addr.length < 65536 ∧
  r.inviteToken.length < 65536)
include hlen

theorem decode_lodgeEntry :
    decodeCommand (lodgeEntry r) = .ok ⟨.set, pendingJoinKey r.peerID, joinMetadata r⟩ := by
  refine decodeCommand_encodeCommand ?_
  have hquote := Json.length_quote r.addr
  have hdigits : ∀ sf : Suffrage, (Json.decimal (if sf = .nonvoter then suffrageLearner
      else suffrageVoter).toNat).length = 1 := by
    intro sf
    cases sf <;> rfl
  have h₁ : (ascii "\x7b\"addr\":").length = 8 := rfl
  have h₂ : (ascii ",\"suffrage\":").length = 12 := rfl
  have h₃ : (ascii "\x7d").length = 1 := rfl
  simp only [pendingJoinKey, systemKey, joinMetadata, encodeClusterJoinMetadata, List.length_cons,
    List.length_append, hdigits, h₁, h₂, h₃]
  omega

theorem decode_consumeInviteEntry :
    decodeCommand (consumeInviteEntry r.inviteToken) =
      .ok ⟨.consumeInvite, joinInviteKey r.inviteToken, []⟩ := by
  refine decodeCommand_encodeCommand ?_
  simp only [joinInviteKey, systemKey, List.length_cons, List.length_nil]
  omega

theorem outcome_consumeJoinInvite (env : Env) (n : Node) :
    ((consumeJoinInvite env r.inviteToken).outcome n).toOption =
      if (env.applyFault (consumeInviteEntry r.inviteToken)).isSome then none
      else inviteSuffrage n.store r.inviteToken := by
  unfold consumeJoinInvite
  rw [← consumeInviteEntry, EStateM.outcome_bind, outcome_wrapping, outcome_raftApply]
  cases env.applyFault (consumeInviteEntry r.inviteToken) with
  | some f => rfl
  | none =>
    simp only [apply, decode_consumeInviteEntry hlen, applyConsumeInvite, Store.get!,
      inviteSuffrage]
    cases n.store.get (joinInviteKey r.inviteToken) with
    | none => rfl
    | some v =>
      simp only [Except.mapError]
      rw [EStateM.outcome_bind, outcome_wrapping, EStateM.outcome_ofExcept]
      cases decodeJoinInviteRecord v <;> rfl

theorem consumeJoinInvite_frame (env : Env) (n : Node) :
    ((consumeJoinInvite env r.inviteToken).final n).raft = n.raft ∧
      ∀ q, ((consumeJoinInvite env r.inviteToken).final n).store.get (pendingJoinKey q) =
        n.store.get (pendingJoinKey q) := by
  rw [final_consumeJoinInvite, final_raftApply]
  split_ifs
  · refine ⟨rfl, fun q => ?_⟩
    have hne : pendingJoinKey q ≠ joinInviteKey r.inviteToken :=
      systemKey_ne_of_kind (by decide) _ _ _ _
    refine get_apply_of_ne rfl ?_ (by simp) hne n.store env.now
    simp only [joinInviteKey, systemKey, List.length_cons]
    omega
  · exact ⟨rfl, fun _ => rfl⟩

theorem apply_lodgeEntry (s : Store) (t : Int) :
    (apply s ⟨lodgeEntry r, t⟩).2 =
      match checkSystemListCap s (pendingJoinKey r.peerID) with
      | .ok () => s.set (pendingJoinKey r.peerID) (joinMetadata r)
      | .error _ => s := by
  have hkind : systemKind (pendingJoinKey r.peerID) = some kindClusterJoin := rfl
  have hgroup : checkGroupNameUnique s (pendingJoinKey r.peerID) (joinMetadata r) = .ok () := by
    unfold checkGroupNameUnique
    rw [hkind, if_pos (by decide)]
  have hspec : preserveCommandSpec s (pendingJoinKey r.peerID) (joinMetadata r) =
      .ok (joinMetadata r) := by
    unfold preserveCommandSpec
    rw [hkind, if_pos (by decide)]
  simp only [apply, decode_lodgeEntry hlen, applySet, hgroup, hspec]
  cases checkSystemListCap s (pendingJoinKey r.peerID) <;> rfl

theorem lodgeJoinRequest_effect {n : Node} (hlead : n.isLeader = true) (env : Env) :
    ((lodgeJoinRequest env r).final n).servers = n.servers ∧
      ∀ q, ((lodgeJoinRequest env r).final n).store.get (pendingJoinKey q) =
        if (env.commits (lodgeEntry r) = true ∧
            checkSystemListCap n.store (pendingJoinKey r.peerID) = .ok ()) ∧ q = r.peerID
        then some (joinMetadata r) else n.store.get (pendingJoinKey q) := by
  have hf : (lodgeJoinRequest env r).final n =
      if env.commits (lodgeEntry r) then n.applied env (lodgeEntry r) else n := by
    rw [lodgeEntry, ← final_applyOp]
    unfold EStateM.final lodgeJoinRequest
    rw [handleSetForward, handleOpForward_of_leader hlead]
    rfl
  rw [hf]
  cases hc : env.commits (lodgeEntry r) with
  | false => simp
  | true =>
    refine ⟨rfl, fun q => ?_⟩
    simp only [if_true, Node.applied, apply_lodgeEntry hlen, true_and]
    rcases hcap : checkSystemListCap n.store (pendingJoinKey r.peerID) with e | ⟨⟩
    · simp
    · simp only [true_and]
      have hinj : pendingJoinKey q = pendingJoinKey r.peerID ↔ q = r.peerID := by
        simp [pendingJoinKey, systemKey]
      rw [Store.set, OrdMap.get_insert]
      simp only [hinj]

theorem admitOrLodgeJoin_effect {n : Node} (hlead : n.isLeader = true) (env : Env) :
    JoinEffect env r n ((admitOrLodgeJoin env r).final n) := by
  have hq : r.peerID.length < 2 ^ 29 := by omega
  -- admitting a server leaves every pending record alone
  have hadd : ∀ (n₁ : Node) (sf : Suffrage), n₁.isLeader = true →
      ((addServerLine env r.peerID r.addr sf).final n₁).servers =
        serversAfter env n₁.servers (some (addServer r.peerID r.addr sf)) ∧
      ∀ q, ((addServerLine env r.peerID r.addr sf).final n₁).store.get (pendingJoinKey q) =
        n₁.store.get (pendingJoinKey q) := by
    intro n₁ sf h₁
    have heffect := addServerLine_effect hq h₁ env r.addr sf
    exact ⟨heffect.servers, fun q => heffect.store _ (not_isMemberKey_pending _ _ _)⟩
  unfold admitOrLodgeJoin
  by_cases htoken : r.inviteToken = []
  · rw [if_neg (not_not.mpr htoken), EStateM.final_get_bind]
    cases hreq : n.requireConfirmForJoin with
    | true =>
      rw [if_pos rfl, EStateM.final_bind_of_pure fun _ _ => rfl]
      obtain ⟨hservers, hpending⟩ := lodgeJoinRequest_effect hlen hlead env
      constructor
      · rw [hservers]
        simp [joinChange, htoken, hreq, serversAfter]
      · intro q
        rw [hpending]
        simp only [Lodges, htoken, hreq, true_and]
    | false =>
      rw [if_neg Bool.false_ne_true, EStateM.final_bind_of_pure fun _ _ => rfl]
      obtain ⟨hservers, hpending⟩ := hadd n r.suffrage hlead
      constructor
      · rw [hservers]
        simp [joinChange, htoken, hreq]
      · intro q
        rw [hpending]
        simp [Lodges, hreq]
  · rw [if_pos htoken, EStateM.final_bind]
    have hsf := outcome_consumeJoinInvite hlen env n
    obtain ⟨hraft, hframe⟩ := consumeJoinInvite_frame hlen env n
    set n₁ := (consumeJoinInvite env r.inviteToken).final n
    have hlead₁ : n₁.isLeader = true := by
      unfold Node.isLeader
      rw [hraft]
      exact hlead
    have hservers₁ : n₁.servers = n.servers := by
      unfold Node.servers
      rw [hraft]
    have hno : ¬Lodges env n r := fun h => htoken h.1
    have hchange : joinChange env n r =
        ((consumeJoinInvite env r.inviteToken).outcome n).toOption.map
          (addServer r.peerID r.addr) := by
      rw [hsf]
      unfold joinChange
      rw [if_pos htoken]
      split_ifs <;> rfl
    rcases ho : (consumeJoinInvite env r.inviteToken).outcome n with e | sf <;> rw [ho] at hchange
    · constructor
      · rw [hchange]
        exact hservers₁
      · intro q
        simp only [hno, false_and, if_false]
        exact hframe q
    · dsimp only
      rw [EStateM.final_bind_of_pure fun _ _ => rfl]
      obtain ⟨hservers, hpending⟩ := hadd n₁ sf hlead₁
      constructor
      · rw [hservers, hservers₁, hchange]
        rfl
      · intro q
        simp only [hno, false_and, if_false]
        rw [hpending, hframe]

end Sizes

/-! ## Whom a request concerns -/

/-- At most the sender's server entry differs, and no pending record but the sender's. -/
def JoinConfined (p : Bytes) (n n' : Node) : Prop :=
  n'.servers.filter (·.id ≠ p) = n.servers.filter (·.id ≠ p) ∧
    ∀ q, q ≠ p → n'.store.get (pendingJoinKey q) = n.store.get (pendingJoinKey q)

/-- The request makes a difference: raft commits a change that the configuration does not show yet,
or a record is lodged that was not there with these values. -/
def TakesEffect (env : Env) (n : Node) (r : JoinRequest) : Prop :=
  (∃ c, joinChange env n r = some c ∧ env.commitsConfig c = true ∧
    nextConfiguration n.servers c ≠ n.servers) ∨
  (Lodges env n r ∧ n.store.get (pendingJoinKey r.peerID) ≠ some (joinMetadata r))

theorem joinChange_eq_some {env : Env} {n : Node} {r : JoinRequest} {c : ConfigChange}
    (h : joinChange env n r = some c) : ∃ sf, c = addServer r.peerID r.addr sf := by
  unfold joinChange at h
  split_ifs at h
  · obtain ⟨sf, -, rfl⟩ := Option.map_eq_some_iff.mp h
    exact ⟨sf, rfl⟩
  · cases h
    exact ⟨r.suffrage, rfl⟩

theorem confined_of_own {env : Env} {r : JoinRequest} {n n' : Node} (h : JoinEffect env r n n') :
    JoinConfined r.peerID n n' := by
  constructor
  · rw [h.servers]
    rcases hc : joinChange env n r with _ | c
    · rfl
    · obtain ⟨sf, rfl⟩ := joinChange_eq_some hc
      obtain ⟨f, hf, hnext⟩ := nextConfiguration_addServer r.peerID r.addr sf
      simp only [serversAfter]
      split_ifs
      · rw [hnext, filter_upsert_self hf]
      · rfl
  · intro q hq
    rw [h.pending, if_neg fun hl => hq hl.2]

theorem confined_iff_of_other {p : Bytes} {env : Env} {r : JoinRequest} {n n' : Node}
    (h : JoinEffect env r n n') (hp : r.peerID ≠ p) :
    JoinConfined p n n' ↔ ¬TakesEffect env n r := by
  have hservers : n'.servers.filter (·.id ≠ p) = n.servers.filter (·.id ≠ p) ↔
      ¬∃ c, joinChange env n r = some c ∧ env.commitsConfig c = true ∧
        nextConfiguration n.servers c ≠ n.servers := by
    rw [h.servers]
    rcases hc : joinChange env n r with _ | c
    · simp [serversAfter]
    · obtain ⟨sf, rfl⟩ := joinChange_eq_some hc
      obtain ⟨f, hf, hnext⟩ := nextConfiguration_addServer r.peerID r.addr sf
      simp only [serversAfter]
      split_ifs with hcommit
      · rw [hnext, filter_upsert_iff hp hf]
        simp [hcommit, hnext]
      · simp [hcommit]
  have hpending : (∀ q, q ≠ p → n'.store.get (pendingJoinKey q) = n.store.get (pendingJoinKey q)) ↔
      ¬(Lodges env n r ∧ n.store.get (pendingJoinKey r.peerID) ≠ some (joinMetadata r)) := by
    constructor
    · rintro hq ⟨hl, hne⟩
      have := hq r.peerID hp
      rw [h.pending, if_pos ⟨hl, rfl⟩] at this
      exact hne this.symm
    · intro hno q _
      rw [h.pending]
      split_ifs with hl
      · obtain ⟨hl, rfl⟩ := hl
        by_contra hne
        exact hno ⟨hl, fun heq => hne heq.symm⟩
      · rfl
  rw [JoinConfined, hservers, hpending, TakesEffect, not_or]

section Streams

variable {n : Node} (hlead : n.isLeader = true) (env : Env)
include hlead

theorem final_handleJoinStream (stream : Bytes) :
    (handleJoinStream env stream).final n =
      match parseJoinRequest stream with
      | .ok r => (admitOrLodgeJoin env r).final n
      | .error _ => n := by
  unfold handleJoinStream
  rw [EStateM.final_bind, outcome_wrapping, final_wrapping, EStateM.outcome_ofExcept,
    EStateM.final_ofExcept]
  rcases parseJoinRequest stream with e | r
  · rfl
  · simp only [Except.mapError, EStateM.final_get_bind, hlead, if_true]

theorem final_handleForwardJoinStream (stream : Bytes) :
    (handleForwardJoinStream env stream).final n =
      match parseJoinRequest stream with
      | .ok r => (admitOrLodgeJoin env r).final n
      | .error _ => n := by
  unfold handleForwardJoinStream
  rw [EStateM.final_bind, outcome_wrapping, final_wrapping, EStateM.outcome_ofExcept,
    EStateM.final_ofExcept]
  rcases parseJoinRequest stream with e | r
  · rfl
  · simp only [Except.mapError, EStateM.final_get_bind, hlead, if_true]

theorem joinStream_cases (stream : Bytes) :
    (handleJoinStream env stream).final n = n ∨
      ∃ r, parseJoinRequest stream = .ok r ∧
        (handleJoinStream env stream).final n = (admitOrLodgeJoin env r).final n := by
  rw [final_handleJoinStream hlead]
  rcases parseJoinRequest stream with e | r
  · exact .inl rfl
  · exact .inr ⟨r, rfl, rfl⟩

theorem forwardJoinStream_cases (stream : Bytes) :
    (handleForwardJoinStream env stream).final n = n ∨
      ∃ r, parseJoinRequest stream = .ok r ∧
        (handleForwardJoinStream env stream).final n = (admitOrLodgeJoin env r).final n := by
  rw [final_handleForwardJoinStream hlead, ← final_handleJoinStream hlead]
  exact joinStream_cases hlead env stream

/-- A request on the join protocol, sent by `p` to a leader, is confined to `p` exactly if it does
not parse, names `p`, or makes no difference. -/
theorem joinStream_confined_iff (p stream : Bytes) :
    JoinConfined p n ((handleJoinStream env stream).final n) ↔
      ∀ r, parseJoinRequest stream = .ok r → r.peerID = p ∨ ¬TakesEffect env n r := by
  rw [final_handleJoinStream hlead]
  rcases hr : parseJoinRequest stream with e | r
  · simp [JoinConfined]
  · have heffect := admitOrLodgeJoin_effect (length_parseJoinRequest hr) hlead env
    simp only [Except.ok.injEq, forall_eq']
    by_cases hp : r.peerID = p
    · subst hp
      simp only [true_or, iff_true]
      exact confined_of_own heffect
    · simp only [hp, false_or]
      exact confined_iff_of_other heffect hp

end Streams

def joinLine : Bytes := ascii "q /ip4/1.2.3.4 voter\n"

theorem joinStream_confined_own :
    JoinConfined (ascii "q") (Node.alone (ascii "l") OrdMap.empty)
      ((handleJoinStream {} joinLine).final (Node.alone (ascii "l") OrdMap.empty)) := by
  refine (joinStream_confined_iff (by decide) {} (ascii "q") joinLine).mpr fun r hr => .inl ?_
  have hparse : parseJoinRequest joinLine =
      .ok ⟨ascii "q", ascii "/ip4/1.2.3.4", .voter, []⟩ := by decide
  rw [hparse] at hr
  cases hr
  rfl

/-- The peer `p` makes `q` a voter: the handler never asks who is at the other end of the stream. -/
theorem joinStream_admits_another :
    isVoter (Node.alone (ascii "l") OrdMap.empty) (ascii "q") = false ∧
      isVoter ((handleJoinStream {} joinLine).final (Node.alone (ascii "l") OrdMap.empty))
        (ascii "q") = true ∧
      ¬JoinConfined (ascii "p") (Node.alone (ascii "l") OrdMap.empty)
        ((handleJoinStream {} joinLine).final (Node.alone (ascii "l") OrdMap.empty)) := by
  refine ⟨by decide, by decide, fun h => ?_⟩
  exact absurd h.1 (by decide)

end KvRaft.Daemon
