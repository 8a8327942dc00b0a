import KvRaft.Encoding.Utf8
import KvRaft.Kvctl.Catalog
import KvRaft.Kvfsm.Permission

/-! # The client's permission check (`pkg/kvctl/catalog.go`)

`isPermittedForCommand` of the client asks the node for the links of a command one at a time, from a
range that is padded with `0xFF` bytes where the state machine scans by the common beginning, and
reads the group and the membership of each link in a call of its own. The node answers from one
store throughout. -/

namespace KvRaft.Kvctl

open Bytes Shmevent

def sessionGet (s : Store) (key : Bytes) : Except Err Bytes := s.get! key

/-- Whether the group that was asked for came back, decodes and is public. -/
def isPublicReply : Except Err Bytes → Bool
  | .error _ => false
  | .ok groupValue =>
    match decodeGroupPayload groupValue with
    | .error _ => false
    | .ok (_, isPublic) => isPublic

/-- What one round of the loop returns, unless it goes on to the next link. -/
def permitRound (s : Store) (peerID key : Bytes) : Option (Except Err Bool) :=
  match parseGroupCommandKey key with
  | .error e => some (.error e)
  | .ok (_, groupID) =>
    if isPublicReply (sessionGet s (groupKey groupID)) then some (.ok true)
    else
      match peerGroupKey peerID groupID with
      | .error e => some (.error e)
      | .ok k =>
        match sessionGet s k with
        | .ok _ => some (.ok true)
        | .error _ => none

def isPermittedForCommand (s : Store) (peerID commandID : Bytes) : Except Err Bool := do
  let (lo, hi) ← groupCommandBounds commandID
  let returned := OrdMap.pages (fun lo => listRange s lo hi) (fun key => key ++ [0x00])
    (fun _ kv => (permitRound s peerID kv.1, (permitRound s peerID kv.1).isSome))
    (s.entries.length + 1) lo none
  returned.getD (.ok false)

/-! ## The links of a command -/

/-- The links of the store parse, to groups with an identifier in UTF-8. -/
def Utf8Links (s : Store) : Prop :=
  ∀ k v, s.get k = some v → Kvfsm.systemKind k = some kindGroupCommand →
    ∃ c g, parseGroupCommandKey k = .ok (c, g) ∧ Encoding.Utf8.valid g = true

theorem scan_links {s : Store} (h : Utf8Links s) {commandID p : Bytes}
    (hp : groupCommandKey commandID [] = .ok p) :
    s.scan (Store.inRange p (p ++ List.replicate 64 0xFF)) = s.scanPrefix p 0 := by
  refine OrdMap.scan_eq_of_iff fun k v hk => Store.inRange_padded 63 ?_
  rintro r rfl
  obtain ⟨g, hg⟩ := (relationKey_nil_isPrefix hp (p ++ r)).mp (List.prefix_append ..)
  have hparse := parseRelationKey_relationKey hg
  have hr : r = g := by
    obtain ⟨-, hkey⟩ := relationKey_eq_ok hg
    obtain ⟨-, rfl⟩ := relationKey_eq_ok hp
    simpa [systemKey] using hkey
  have hkind : Kvfsm.systemKind (p ++ r) = some kindGroupCommand := by
    obtain ⟨-, rfl⟩ := relationKey_eq_ok hp
    rfl
  obtain ⟨c, g', hparse', hvalid⟩ := h _ v hk hkind
  cases hparse.symm.trans hparse'
  rw [hr]
  exact Encoding.Utf8.head_ne_of_valid hvalid

/-! ## The loop -/

theorem isPublicReply_sessionGet (s : Store) (g : Bytes) :
    isPublicReply (sessionGet s (groupKey g)) = Kvfsm.isPublicGroup s g := by
  unfold sessionGet Store.get! Kvfsm.isPublicGroup
  cases s.get (groupKey g) <;> rfl

theorem permitRound_eq (s : Store) (peerID key : Bytes) :
    permitRound s peerID key =
      match parseGroupCommandKey key with
      | .error e => some (.error e)
      | .ok (_, groupID) =>
        if Kvfsm.isPublicGroup s groupID then some (.ok true)
        else
          match peerGroupKey peerID groupID with
          | .error e => some (.error e)
          | .ok k => if (s.get k).isSome then some (.ok true) else none := by
  unfold permitRound
  rcases parseGroupCommandKey key with e | ⟨c, g⟩
  · rfl
  dsimp only
  rw [isPublicReply_sessionGet]
  split_ifs with hpub
  · rfl
  rcases peerGroupKey peerID g with e | k
  · rfl
  unfold sessionGet Store.get!
  dsimp only
  cases s.get k <;> rfl

theorem foldUntil_permitRound (s : Store) (peerID : Bytes) (ms : List (Bytes × Bytes)) :
    (ms.foldUntil (fun _ kv => (permitRound s peerID kv.1, (permitRound s peerID kv.1).isSome))
      none).getD (.ok false) = Kvfsm.anyGroupPermits s peerID ms := by
  induction ms with
  | nil => rfl
  | cons m ms ih =>
    rw [List.foldUntil, Kvfsm.anyGroupPermits]
    dsimp only
    rw [permitRound_eq]
    rcases parseGroupCommandKey m.1 with e | ⟨c, g⟩
    · rfl
    dsimp only
    split_ifs with hpub hstop hstop
    · rfl
    · exact absurd rfl hstop
    · rcases hk : peerGroupKey peerID g with e | k <;> rw [hk] at hstop
      · rfl
      · dsimp only at hstop ⊢
        split_ifs at hstop ⊢ with hmem
        · rfl
        · cases hstop
    · rcases hk : peerGroupKey peerID g with e | k <;> rw [hk] at hstop
      · exact absurd rfl hstop
      · dsimp only at hstop ⊢
        split_ifs at hstop ⊢ with hmem
        · exact absurd rfl hstop
        · exact ih

/-- **The client's check is the state machine's**, also in its errors. -/
theorem isPermittedForCommand_eq {s : Store} (h : Utf8Links s) (peerID commandID : Bytes) :
    isPermittedForCommand s peerID commandID = Kvfsm.isPermittedForCommand s commandID peerID := by
  unfold isPermittedForCommand Kvfsm.isPermittedForCommand groupCommandBounds relationBounds
  rcases hp : groupCommandKey commandID [] with e | p
  · have hp' : relationKey kindGroupCommand commandID [] = .error e := hp
    rw [hp']
    rfl
  have hp' : relationKey kindGroupCommand commandID [] = .ok p := hp
  rw [hp']
  have hne : p ≠ [] := by
    obtain ⟨-, rfl⟩ := relationKey_eq_ok hp'
    simp [systemKey]
  have hpages := Store.pages_range (s := s) (· ≠ []) (by simp)
    (fun lo hlo => listRange_eq_head? (.inl hlo) (p ++ List.replicate 64 0xFF))
    (fun _ kv => (permitRound s peerID kv.1, (permitRound s peerID kv.1).isSome)) hne none
  change (OrdMap.pages (fun lo => listRange s lo (p ++ List.replicate 64 0xFF)) _ _ _ p
    none).getD _ = _
  rw [hpages, scan_links h hp, foldUntil_permitRound]

/-- **The permission checks.** In a store whose links carry group identifiers in UTF-8, and for a
command and a peer that fit a key, the state machine permits exactly what the rule permits, and the
client's check returns the same answer. -/
theorem permission_checks (s : Store) (h : Utf8Links s) (commandID peerID : Bytes)
    (hcommand : commandID.length ≤ 0xFFFF) (hpeer : peerID.length ≤ 0xFFFF) :
    (Kvfsm.isPermittedForCommand s commandID peerID = .ok true ↔
      Kvfsm.Permitted s commandID peerID) ∧
    (∃ b, Kvfsm.isPermittedForCommand s commandID peerID = .ok b) ∧
    isPermittedForCommand s peerID commandID = Kvfsm.isPermittedForCommand s commandID peerID := by
  obtain ⟨b, hb, -⟩ := Kvfsm.isPermittedForCommand_spec s hcommand hpeer
  exact ⟨Kvfsm.permitted_iff hcommand hpeer, ⟨b, hb⟩, isPermittedForCommand_eq h peerID commandID⟩

def openCommand : Store :=
  (OrdMap.empty.insert (groupKey (ascii "g")) (encodeGroupPayload (ascii "g") true)).insert
    (systemKey kindGroupCommand catalogStatusPlaceholder ([0, 1] ++ ascii "cg")) []

theorem utf8Links_openCommand : Utf8Links openCommand := by
  intro k v hk hkind
  have hentries : openCommand.entries =
      [(groupKey (ascii "g"), encodeGroupPayload (ascii "g") true),
        (systemKey kindGroupCommand catalogStatusPlaceholder ([0, 1] ++ ascii "cg"), [])] := by
    decide
  have hmem := OrdMap.get_eq_some.mp hk
  rw [hentries, List.mem_cons, List.mem_singleton] at hmem
  rcases hmem with hmem | hmem <;> cases hmem
  · exact absurd hkind (by decide)
  · exact ⟨ascii "c", ascii "g", by decide, by decide⟩

/-- A peer that belongs to no group may run it, by either check. -/
theorem permission_checks_open :
    Kvfsm.Permitted openCommand (ascii "c") (ascii "p") ∧
      isPermittedForCommand openCommand (ascii "p") (ascii "c") = .ok true := by
  obtain ⟨hiff, -, heq⟩ :=
    permission_checks openCommand utf8Links_openCommand (ascii "c") (ascii "p")
    (by decide) (by decide)
  have hpermitted :
      Kvfsm.isPermittedForCommand openCommand (ascii "c") (ascii "p") = .ok true := by decide
  exact ⟨hiff.mp hpermitted, heq.trans hpermitted⟩

end KvRaft.Kvctl
