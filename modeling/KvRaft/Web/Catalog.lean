import KvRaft.Kvctl.Permission
import KvRaft.Web.SqliteStore

/-! # The catalog in the browser (`web-app/src/catalog.rs`, `web-app/src/shmevent/catalog_keys.rs`)

The browser client reads groups and links from its own copy of the table and answers the same
questions as the nodes. It knows nothing of public groups: the permission check looks for a
membership only, and a group's record is taken for its name, with the byte in front that says
whether the group is public. -/

namespace KvRaft.Web.Catalog

open Bytes

/-! ## Keys (`catalog_keys.rs`, `system.rs`) -/

inductive Error
  | commandIDTooLong (n : Nat)
  | peerIDTooLong (n : Nat)
  | notGroupCommandKey
  | groupCommandKeyTruncated
  | groupNotFound (id : Bytes)
  | malformedGroupKey (key : Bytes)
deriving DecidableEq, Repr

def systemKeyPrefix : UInt8 := 0x00
def kindGroup : UInt8 := 0x06
def kindGroupCommand : UInt8 := 0x08
def kindPeerGroup : UInt8 := 0x09
def catalogStatusPlaceholder : UInt8 := 0x00
def systemKeyIDOffset : Nat := 3

def systemKey (kind status : UInt8) (peerID : Bytes) : Bytes :=
  systemKeyPrefix :: kind :: status :: peerID

def groupKey (id : Bytes) : Bytes := systemKey kindGroup catalogStatusPlaceholder id

def keyListBounds (kind : UInt8) : Bytes × Bytes :=
  let p := systemKey kind catalogStatusPlaceholder []
  (p, p ++ List.replicate 64 0xFF)

def groupKeyBounds : Bytes × Bytes := keyListBounds kindGroup

/-- `group_command_key` and `peer_group_key`: an identifier with its length, then the group's. -/
def relationKey (kind : UInt8) (tooLong : Nat → Error) (id groupID : Bytes) : Except Error Bytes :=
  if id.length > 0xFFFF then .error (tooLong id.length)
  else .ok (systemKeyPrefix :: kind :: catalogStatusPlaceholder :: UInt8.ofNat (id.length >>> 8) ::
    UInt8.ofNat id.length :: (id ++ groupID))

def groupCommandKey : Bytes → Bytes → Except Error Bytes :=
  relationKey kindGroupCommand .commandIDTooLong
def peerGroupKey : Bytes → Bytes → Except Error Bytes := relationKey kindPeerGroup .peerIDTooLong

def groupCommandBounds (commandID : Bytes) : Except Error (Bytes × Bytes) := do
  let p ← groupCommandKey commandID []
  return (p, p ++ List.replicate 64 0xFF)

def parseGroupCommandKey : Bytes → Except Error (Bytes × Bytes)
  | p :: kind :: _ :: hi :: lo :: rest =>
    if p ≠ systemKeyPrefix ∨ kind ≠ kindGroupCommand then .error .notGroupCommandKey
    else
      let cmdLen := hi.toNat <<< 8 ||| lo.toNat
      if rest.length < cmdLen then .error .groupCommandKeyTruncated
      else .ok (rest.take cmdLen, rest.drop cmdLen)
  | _ => .error .notGroupCommandKey

/-- `decode_group_payload`: the whole payload is the name. -/
def decodeGroupPayload (payload : Bytes) : Bytes := Encoding.Utf8.lossy payload

/-! ## Reads (`client.rs`) -/

/-- `SELECT value FROM kv WHERE key = ?1` -/
def localGet (s : SqliteStore) (key : Bytes) : Option Bytes := s.kv.get key

/-- `SELECT key, value FROM kv WHERE key >= ?1 AND key <= ?2 ORDER BY key ASC LIMIT 1` -/
def localScanRange (s : SqliteStore) (start stop : Bytes) : Option (Bytes × Bytes) :=
  (s.kv.scan fun key => !decide (key < start) && !decide (stop < key)).head?

/-- The loop over a range. `f` is the closure with what it has captured, and returns
whether it breaks. -/
def localScanAll {β : Type} (s : SqliteStore) (start stop : Bytes)
    (f : β → Bytes × Bytes → β × Bool) (b : β) : β :=
  OrdMap.pages (fun lo => localScanRange s lo stop) (fun key => key ++ [0x00]) f
    (s.kv.entries.length + 1) start b

/-! ## Lookups (`catalog.rs`) -/

structure Group where
  id : Bytes
  name : Bytes
deriving DecidableEq, Repr

def getGroup (s : SqliteStore) (id : Bytes) : Except Error Group :=
  match localGet s (groupKey id) with
  | none => .error (.groupNotFound id)
  | some value => .ok ⟨id, decodeGroupPayload value⟩

def listGroup (acc : List Group × Option Error) (kv : Bytes × Bytes) :
    (List Group × Option Error) × Bool :=
  if kv.1.length < systemKeyIDOffset then ((acc.1, some (.malformedGroupKey kv.1)), true)
  else ((acc.1 ++ [⟨Encoding.Utf8.lossy (kv.1.drop systemKeyIDOffset), decodeGroupPayload kv.2⟩],
    acc.2), false)

def listGroups (s : SqliteStore) : Except Error (List Group) :=
  let (groups, err) := localScanAll s groupKeyBounds.1 groupKeyBounds.2 listGroup ([], none)
  match err with
  | some e => .error e
  | none => .ok groups

/-- One link of the command: whether the peer is permitted, the error, and whether the loop ends. -/
def permitLink (s : SqliteStore) (peerID : Bytes) (acc : Bool × Option Error) (kv : Bytes × Bytes) :
    (Bool × Option Error) × Bool :=
  match parseGroupCommandKey kv.1 with
  | .error e => ((acc.1, some e), true)
  | .ok (_, groupID) =>
    match peerGroupKey peerID groupID with
    | .error e => ((acc.1, some e), true)
    | .ok k =>
      match localGet s k with
      | some _ => ((true, acc.2), true)
      | none => (acc, false)

/-- What `is_permitted_for_command` returns for what its closure has captured. -/
def permitResult (acc : Bool × Option Error) : Except Error Bool :=
  match acc.2 with
  | some e => .error e
  | none => .ok acc.1

def isPermittedForCommand (s : SqliteStore) (peerID commandID : Bytes) : Except Error Bool :=
  match groupCommandBounds commandID with
  | .error e => .error e
  | .ok (lo, hi) => permitResult (localScanAll s lo hi (permitLink s peerID) (false, none))

/-! ## The same keys -/

theorem cases_of_toOption_eq {ε ε' α : Type} {x : Except ε α} {y : Except ε' α}
    (h : x.toOption = y.toOption) : (∃ e e', x = .error e ∧ y = .error e') ∨
      ∃ a, x = .ok a ∧ y = .ok a := by
  cases x <;> cases y <;> cases h
  · exact .inl ⟨_, _, rfl, rfl⟩
  · exact .inr ⟨_, rfl, rfl⟩

theorem relationKey_toOption (kind : UInt8) (tooLong : Nat → Error) (id groupID : Bytes) :
    (relationKey kind tooLong id groupID).toOption =
      (Shmevent.relationKey kind id groupID).toOption := by
  unfold relationKey Shmevent.relationKey
  split_ifs
  · rfl
  · rw [beBytes_two, Nat.shiftRight_eq_div_pow]
    rfl

theorem groupCommandKey_toOption (commandID groupID : Bytes) :
    (groupCommandKey commandID groupID).toOption =
      (Shmevent.groupCommandKey commandID groupID).toOption :=
  relationKey_toOption ..

theorem peerGroupKey_toOption (peerID groupID : Bytes) :
    (peerGroupKey peerID groupID).toOption = (Shmevent.peerGroupKey peerID groupID).toOption :=
  relationKey_toOption ..

theorem parseGroupCommandKey_toOption : ∀ key : Bytes,
    (parseGroupCommandKey key).toOption = (Shmevent.parseGroupCommandKey key).toOption
  | p :: kind :: status :: hi :: lo :: rest => by
    have hlen : hi.toNat <<< 8 ||| lo.toNat = beNat [hi, lo] := by
      rw [← Nat.shiftLeft_add_eq_or_of_lt lo.toNat_lt, Nat.shiftLeft_eq]
      simp [beNat]
    rw [parseGroupCommandKey, Shmevent.parseGroupCommandKey, Shmevent.parseRelationKey,
      hlen, readBytes]
    by_cases hkind : p ≠ systemKeyPrefix ∨ kind ≠ kindGroupCommand
    · have hkind' : p ≠ Shmevent.systemKeyPrefix ∨ kind ≠ Shmevent.kindGroupCommand := hkind
      rw [if_pos hkind, if_pos hkind']
      rfl
    · have hkind' : ¬(p ≠ Shmevent.systemKeyPrefix ∨ kind ≠ Shmevent.kindGroupCommand) := hkind
      rw [if_neg hkind, if_neg hkind']
      dsimp only
      split_ifs <;> rfl
  | [] => rfl
  | [_] => rfl
  | [_, _] => rfl
  | [_, _, _] => rfl
  | [_, _, _, _] => rfl

theorem localScanAll_eq {β : Type} (s : SqliteStore) {lo : Bytes} (hlo : lo ≠ []) (hi : Bytes)
    (f : β → Bytes × Bytes → β × Bool) (b : β) :
    localScanAll s lo hi f b = (s.kv.scan (Store.inRange lo hi)).foldUntil f b :=
  Store.pages_range (· ≠ []) (by simp) (fun _ _ => rfl) f hlo b

/-! ## Permission -/

def withoutGroups (m : Store) : Store :=
  m.filter fun k => Kvfsm.systemKind k != some Shmevent.kindGroup

theorem get_withoutGroups {m : Store} {k : Bytes}
    (h : Kvfsm.systemKind k ≠ some Shmevent.kindGroup) :
    (withoutGroups m).get k = m.get k := by
  rw [withoutGroups, OrdMap.get_filter, if_pos (by simpa using h)]

theorem isPublicGroup_withoutGroups (m : Store) (g : Bytes) :
    Kvfsm.isPublicGroup (withoutGroups m) g = false := by
  have hnone : (withoutGroups m).get (Shmevent.groupKey g) = none := by
    rw [withoutGroups, OrdMap.get_filter, if_neg]
    simp [Kvfsm.systemKind, Shmevent.groupKey, Shmevent.systemKey]
  simp only [Kvfsm.isPublicGroup, hnone]

theorem get_relation_withoutGroups {m : Store} {kind : UInt8} (hkind : kind ≠ Shmevent.kindGroup)
    {id g k : Bytes} (hk : Shmevent.relationKey kind id g = .ok k) :
    (withoutGroups m).get k = m.get k := by
  obtain ⟨-, rfl⟩ := Shmevent.relationKey_eq_ok hk
  refine get_withoutGroups ?_
  simpa [Kvfsm.systemKind, Shmevent.systemKey] using hkind

theorem permitLink_fold (s : SqliteStore) (peerID : Bytes) (ms : List (Bytes × Bytes)) :
    (permitResult (ms.foldUntil (permitLink s peerID) (false, none))).toOption =
      (Kvfsm.anyGroupPermits (withoutGroups s.kv) peerID ms).toOption := by
  induction ms with
  | nil => rfl
  | cons m ms ih =>
    rw [List.foldUntil, Kvfsm.anyGroupPermits]
    rcases cases_of_toOption_eq (parseGroupCommandKey_toOption m.1) with
      ⟨e, e', hrust, hgo⟩ | ⟨⟨c, g⟩, hrust, hgo⟩
    · have hlink : permitLink s peerID (false, none) m = ((false, some e), true) := by
        simp only [permitLink, hrust]
      rw [hlink, hgo]
      rfl
    rw [hgo]
    dsimp only
    rw [isPublicGroup_withoutGroups, if_neg Bool.false_ne_true]
    rcases cases_of_toOption_eq (peerGroupKey_toOption peerID g) with
      ⟨e, e', hkey, hkey'⟩ | ⟨k, hkey, hkey'⟩
    · have hlink : permitLink s peerID (false, none) m = ((false, some e), true) := by
        simp only [permitLink, hrust, hkey]
      rw [hlink, hkey']
      rfl
    have hlink : permitLink s peerID (false, none) m =
        match s.kv.get k with
        | some _ => ((true, none), true)
        | none => ((false, none), false) := by
      simp only [permitLink, hrust, hkey]
      rfl
    rw [hlink, hkey']
    dsimp only
    rw [get_relation_withoutGroups (by decide) hkey']
    cases s.kv.get k with
    | none => exact ih
    | some v => rfl

theorem scanPrefix_withoutGroups {m : Store} {commandID p : Bytes}
    (hp : Shmevent.groupCommandKey commandID [] = .ok p) :
    (withoutGroups m).scanPrefix p 0 = m.scanPrefix p 0 := by
  refine Store.scanPrefix_congr 0 fun k hk => ?_
  obtain ⟨g, hg⟩ := (Shmevent.relationKey_nil_isPrefix hp k).mp hk
  exact get_relation_withoutGroups (by decide) hg

/-- **The browser's check** is the state machine's check of the catalog without its groups. -/
theorem isPermittedForCommand_toOption {s : SqliteStore} (h : Kvctl.Utf8Links s.kv)
    (peerID commandID : Bytes) :
    (isPermittedForCommand s peerID commandID).toOption =
      (Kvfsm.isPermittedForCommand (withoutGroups s.kv) commandID peerID).toOption := by
  unfold isPermittedForCommand Kvfsm.isPermittedForCommand groupCommandBounds
  rcases cases_of_toOption_eq (groupCommandKey_toOption commandID []) with
    ⟨e, e', hkey, hkey'⟩ | ⟨p, hkey, hkey'⟩
  · rw [hkey, hkey']
    rfl
  have hne : p ≠ [] := by
    obtain ⟨-, rfl⟩ := Shmevent.relationKey_eq_ok hkey'
    simp [Shmevent.systemKey]
  rw [hkey, hkey']
  dsimp only [bind, Except.bind, pure, Except.pure]
  rw [localScanAll_eq s hne, Kvctl.scan_links h hkey', scanPrefix_withoutGroups hkey']
  exact permitLink_fold s peerID _

/-! ## Where the answers agree -/

/-- The catalog records of the table were written by the nodes' encoders, with identifiers and names
in UTF-8. -/
structure GoCatalog (m : Store) : Prop where
  groups : ∀ k v, m.get k = some v → Kvfsm.systemKind k = some Shmevent.kindGroup →
    ∃ id name isPublic, k = Shmevent.groupKey id ∧ v = Shmevent.encodeGroupPayload name isPublic ∧
      Encoding.Utf8.valid id = true ∧ Encoding.Utf8.valid name = true
  links : ∀ k v, m.get k = some v → Kvfsm.systemKind k = some Shmevent.kindGroupCommand →
    ∃ c g, Shmevent.groupCommandKey c g = .ok k ∧ Encoding.Utf8.valid c = true ∧
      Encoding.Utf8.valid g = true
  members : ∀ k v, m.get k = some v → Kvfsm.systemKind k = some Shmevent.kindPeerGroup →
    ∃ p g, Shmevent.peerGroupKey p g = .ok k ∧ Encoding.Utf8.valid p = true ∧
      Encoding.Utf8.valid g = true

theorem GoCatalog.utf8Links {m : Store} (h : GoCatalog m) : Kvctl.Utf8Links m := by
  intro k v hk hkind
  obtain ⟨c, g, hkey, -, hg⟩ := h.links k v hk hkind
  exact ⟨c, g, Shmevent.parseRelationKey_relationKey hkey, hg⟩

/-- Both checks give the same answer, or both fail. -/
def SamePermission (s : SqliteStore) (peerID commandID : Bytes) : Prop :=
  (isPermittedForCommand s peerID commandID).toOption =
    (Kvfsm.isPermittedForCommand s.kv commandID peerID).toOption

/-- If a public group is linked to the command, then some group with the peer in it is, too; or the
peer's identifier fits no key, and the check of the nodes fails before it comes to
a public group. -/
def MemberWherePublic (m : Store) (peerID commandID : Bytes) : Prop :=
  (∃ g, Kvfsm.HasRecord m (Shmevent.groupCommandKey commandID g) ∧ Kvfsm.PublicGroup m g) →
    (∃ g, Kvfsm.HasRecord m (Shmevent.groupCommandKey commandID g) ∧
      Kvfsm.HasRecord m (Shmevent.peerGroupKey peerID g)) ∨
    (0xFFFF < peerID.length ∧ ∃ g, Kvfsm.HasRecord m (Shmevent.groupCommandKey commandID g) ∧
      ¬Kvfsm.PublicGroup m g ∧
      ∀ g', Kvfsm.HasRecord m (Shmevent.groupCommandKey commandID g') → ¬g' < g)

section Permission

variable {m : Store} {peerID commandID : Bytes}

theorem hasRecord_withoutGroups {kind : UInt8} (hkind : kind ≠ Shmevent.kindGroup) (id g : Bytes) :
    Kvfsm.HasRecord (withoutGroups m) (Shmevent.relationKey kind id g) ↔
      Kvfsm.HasRecord m (Shmevent.relationKey kind id g) := by
  constructor
  · rintro ⟨k, v, hk, hv⟩
    exact ⟨k, v, hk, (get_relation_withoutGroups hkind hk).symm.trans hv⟩
  · rintro ⟨k, v, hk, hv⟩
    exact ⟨k, v, hk, (get_relation_withoutGroups hkind hk).trans hv⟩

theorem permitted_withoutGroups :
    Kvfsm.Permitted (withoutGroups m) commandID peerID ↔
      ∃ g, Kvfsm.HasRecord m (Shmevent.groupCommandKey commandID g) ∧
        Kvfsm.HasRecord m (Shmevent.peerGroupKey peerID g) := by
  refine exists_congr fun g => and_congr (hasRecord_withoutGroups (by decide) _ _) ?_
  rw [← Kvfsm.isPublicGroup_iff, isPublicGroup_withoutGroups]
  simp only [Bool.false_eq_true, false_or]
  exact hasRecord_withoutGroups (by decide) _ _

theorem sameAnswer_of_le (hcommand : commandID.length ≤ 0xFFFF) (hpeer : peerID.length ≤ 0xFFFF) :
    (Kvfsm.isPermittedForCommand (withoutGroups m) commandID peerID).toOption =
      (Kvfsm.isPermittedForCommand m commandID peerID).toOption ↔
        MemberWherePublic m peerID commandID := by
  obtain ⟨b, hb, hiff⟩ := Kvfsm.isPermittedForCommand_spec m hcommand hpeer
  obtain ⟨b', hb', hiff'⟩ := Kvfsm.isPermittedForCommand_spec (withoutGroups m) hcommand hpeer
  rw [permitted_withoutGroups] at hiff'
  have hlong : ¬0xFFFF < peerID.length := not_lt.mpr hpeer
  have hsplit : Kvfsm.Permitted m commandID peerID ↔
      (∃ g, Kvfsm.HasRecord m (Shmevent.groupCommandKey commandID g) ∧ Kvfsm.PublicGroup m g) ∨
      ∃ g, Kvfsm.HasRecord m (Shmevent.groupCommandKey commandID g) ∧
        Kvfsm.HasRecord m (Shmevent.peerGroupKey peerID g) := by
    simp only [Kvfsm.Permitted, and_or_left, exists_or]
  rw [hsplit, ← hiff'] at hiff
  have hsame :
      (Except.ok b' : Except Err Bool).toOption = (Except.ok b : Except Err Bool).toOption ↔
        b' = b := by
    simp [Except.toOption]
  rw [hb, hb', hsame, MemberWherePublic, ← hiff']
  simp only [hlong, false_and, or_false]
  rw [Bool.eq_iff_iff, hiff]
  exact ⟨fun h hpublic => h.mpr (.inl hpublic), fun h => ⟨.inr, fun hany => hany.elim h id⟩⟩

theorem groupCommandKey_lt {c g g' k k' : Bytes} (hk : Shmevent.groupCommandKey c g = .ok k)
    (hk' : Shmevent.groupCommandKey c g' = .ok k') : k < k' ↔ g < g' := by
  obtain ⟨-, rfl⟩ := Shmevent.relationKey_eq_ok hk
  obtain ⟨-, rfl⟩ := Shmevent.relationKey_eq_ok hk'
  have happend (g : Bytes) :
      Shmevent.systemKey Shmevent.kindGroupCommand Shmevent.catalogStatusPlaceholder
      (beBytes 2 c.length ++ (c ++ g)) = Shmevent.systemKey Shmevent.kindGroupCommand
        Shmevent.catalogStatusPlaceholder (beBytes 2 c.length ++ c) ++ g := by
    simp [Shmevent.systemKey]
  rw [happend, happend, List.append_lt_append_left_iff]

theorem anyGroupPermits_of_long (hpeer : ¬peerID.length ≤ 0xFFFF) {g : Bytes} {kv : Bytes × Bytes}
    (hlink : Shmevent.groupCommandKey commandID g = .ok kv.1) (ms : List (Bytes × Bytes)) :
    (Kvfsm.anyGroupPermits m peerID (kv :: ms)).toOption =
      if Kvfsm.isPublicGroup m g then some true else none := by
  have hparse : Shmevent.parseGroupCommandKey kv.1 = .ok (commandID, g) :=
    Shmevent.parseRelationKey_relationKey hlink
  have hkey :
      Shmevent.peerGroupKey peerID g =
        .error (.relationIDTooLong Shmevent.kindPeerGroup peerID.length) :=
    if_pos (not_le.mp hpeer)
  simp only [Kvfsm.anyGroupPermits, hparse, hkey]
  split_ifs <;> rfl

theorem sameAnswer_of_long (hcommand : commandID.length ≤ 0xFFFF)
    (hpeer : ¬peerID.length ≤ 0xFFFF) :
    (Kvfsm.isPermittedForCommand (withoutGroups m) commandID peerID).toOption =
      (Kvfsm.isPermittedForCommand m commandID peerID).toOption ↔
        MemberWherePublic m peerID commandID := by
  obtain ⟨p, hp⟩ : ∃ p, Shmevent.groupCommandKey commandID [] = .ok p :=
    ⟨_, Shmevent.relationKey_of_le hcommand _ _⟩
  have hnomember (g : Bytes) : ¬Kvfsm.HasRecord m (Shmevent.peerGroupKey peerID g) := by
    rintro ⟨k, v, hk, -⟩
    exact hpeer (Shmevent.relationKey_eq_ok hk).1
  have hlinked := Kvfsm.hasRecord_link_iff (s := m) hp
  simp only [Kvfsm.isPermittedForCommand, hp, scanPrefix_withoutGroups hp]
  rcases hscan : m.scanPrefix p 0 with _ | ⟨first, rest⟩
  · refine iff_of_true rfl ?_
    rintro ⟨g, hg, -⟩
    obtain ⟨kv, hmem, -⟩ := (hlinked g).mp hg
    rw [hscan] at hmem
    cases hmem
  have hmem : first ∈ m.scanPrefix p 0 := hscan ▸ List.mem_cons_self
  obtain ⟨g₀, hg₀⟩ :=
    (Shmevent.relationKey_nil_isPrefix hp first.1).mp (Store.mem_scanPrefix.mp hmem).1
  -- the scan is in the order of the groups
  have hfirst (g : Bytes) (hg : Kvfsm.HasRecord m (Shmevent.groupCommandKey commandID g)) :
      ¬g < g₀ := by
    obtain ⟨kv, hkv, hkey⟩ := (hlinked g).mp hg
    rw [hscan] at hkv
    rw [← groupCommandKey_lt hkey hg₀]
    rcases List.mem_cons.mp hkv with rfl | hkv
    · exact lt_irrefl _
    · have hsorted : (first :: rest).Pairwise (fun a b => a.1 < b.1) := hscan ▸ m.sorted.filter _
      exact lt_asymm ((List.pairwise_cons.mp hsorted).1 kv hkv)
  rw [anyGroupPermits_of_long hpeer hg₀, anyGroupPermits_of_long hpeer hg₀,
    isPublicGroup_withoutGroups, if_neg Bool.false_ne_true]
  have hlink₀ := (hlinked g₀).mpr ⟨first, hmem, hg₀⟩
  have hpublic := Kvfsm.isPublicGroup_iff (s := m) (g := g₀)
  constructor
  · intro hsame _
    refine .inr ⟨not_le.mp hpeer, g₀, hlink₀, fun hpub => ?_, hfirst⟩
    rw [if_pos (hpublic.mpr hpub)] at hsame
    cases hsame
  · intro hcond
    rw [if_neg]
    intro hpub
    rcases hcond ⟨g₀, hlink₀, hpublic.mp hpub⟩ with ⟨g, -, hmember⟩ | ⟨-, g, hg, hprivate, hleast⟩
    · exact hnomember g hmember
    · have hsame : g = g₀ := le_antisymm (not_lt.mp (hleast g₀ hlink₀)) (not_lt.mp (hfirst g hg))
      exact hprivate (hsame ▸ hpublic.mp hpub)

end Permission

theorem samePermission_iff {s : SqliteStore} (h : GoCatalog s.kv) (peerID commandID : Bytes) :
    SamePermission s peerID commandID ↔ MemberWherePublic s.kv peerID commandID := by
  rw [SamePermission, isPermittedForCommand_toOption h.utf8Links]
  by_cases hcommand : commandID.length ≤ 0xFFFF
  · by_cases hpeer : peerID.length ≤ 0xFFFF
    · exact sameAnswer_of_le hcommand hpeer
    · exact sameAnswer_of_long hcommand hpeer
  · -- no key can hold the command, so there are no links and both fail
    have hkey (g : Bytes) : Shmevent.groupCommandKey commandID g =
        .error (.relationIDTooLong Shmevent.kindGroupCommand commandID.length) :=
          if_pos (not_le.mp hcommand)
    refine iff_of_true ?_ ?_
    · simp only [Kvfsm.isPermittedForCommand, hkey]
    · rintro ⟨g, ⟨k, v, hk, -⟩, -⟩
      cases (hkey g).symm.trans hk

/-! ## Names -/

/-- For every group record, both lookups show the name that the nodes decode. -/
def SameNames (s : SqliteStore) : Prop :=
  ∀ id v name isPublic, s.kv.get (Shmevent.groupKey id) = some v →
    Shmevent.decodeGroupPayload v = .ok (name, isPublic) →
    getGroup s id = .ok ⟨id, name⟩ ∧ ∃ groups, listGroups s = .ok groups ∧ ⟨id, name⟩ ∈ groups

theorem decodeGroupPayload_encodeGroupPayload {name : Bytes} (h : Encoding.Utf8.valid name = true)
    (isPublic : Bool) :
    decodeGroupPayload (Shmevent.encodeGroupPayload name isPublic) =
      Shmevent.encodeGroupPayload name isPublic := by
  refine Encoding.Utf8.lossy_of_valid (Encoding.Utf8.valid_cons ?_ h)
  cases isPublic <;> decide

theorem sameNames_iff {s : SqliteStore} (h : GoCatalog s.kv) :
    SameNames s ↔ ∀ id, s.kv.get (Shmevent.groupKey id) = none := by
  constructor
  · intro hsame id
    by_contra hget
    obtain ⟨v, hv⟩ := Option.ne_none_iff_exists'.mp hget
    obtain ⟨id', name, isPublic, -, rfl, -, hname⟩ := h.groups _ v hv rfl
    have hgo : Shmevent.decodeGroupPayload (Shmevent.encodeGroupPayload name isPublic) =
        .ok (name, isPublic) := by cases isPublic <;> rfl
    have hshown : getGroup s id = .ok ⟨id, Shmevent.encodeGroupPayload name isPublic⟩ := by
      rw [getGroup, localGet, show groupKey id = Shmevent.groupKey id from rfl, hv]
      simp only [decodeGroupPayload_encodeGroupPayload hname]
    have hgroup := hshown.symm.trans (hsame id _ name _ hv hgo).1
    have hlength := congrArg List.length (Group.mk.inj (Except.ok.inj hgroup)).2
    simp [Shmevent.encodeGroupPayload] at hlength
  · intro hnone id v name isPublic hv
    cases (hnone id).symm.trans hv

/-- **The two catalogs.** Over a table written by the nodes, the browser's permission check agrees
with the state machine's exactly where no public group is what lets the peer in, and its group
lookups agree with the nodes exactly if there is no group. -/
theorem catalog_agrees_iff (s : SqliteStore) (h : GoCatalog s.kv) :
    (∀ peerID commandID, SamePermission s peerID commandID ↔
      MemberWherePublic s.kv peerID commandID) ∧
      (SameNames s ↔ ∀ id, s.kv.get (Shmevent.groupKey id) = none) :=
  ⟨samePermission_iff h, sameNames_iff h⟩

/-- The browser's copy of a catalog with a command `c` that is linked to the public group `g`. -/
def openTable : SqliteStore := { kv := Kvctl.openCommand }

theorem get_openTable {k v : Bytes} (h : openTable.kv.get k = some v) :
    (k, v) = (Shmevent.groupKey (ascii "g"), Shmevent.encodeGroupPayload (ascii "g") true) ∨
      (k, v) = (Shmevent.systemKey Shmevent.kindGroupCommand Shmevent.catalogStatusPlaceholder
        ([0, 1] ++ ascii "cg"), []) := by
  have hentries : openTable.kv.entries =
      [(Shmevent.groupKey (ascii "g"), Shmevent.encodeGroupPayload (ascii "g") true),
        (Shmevent.systemKey Shmevent.kindGroupCommand Shmevent.catalogStatusPlaceholder
          ([0, 1] ++ ascii "cg"), [])] := by decide
  have hmem := OrdMap.get_eq_some.mp h
  rwa [hentries, List.mem_cons, List.mem_singleton] at hmem

theorem goCatalog_openTable : GoCatalog openTable.kv := by
  constructor
  · intro k v hk hkind
    rcases get_openTable hk with h | h <;> cases h
    · exact ⟨ascii "g", ascii "g", true, rfl, rfl, by decide, by decide⟩
    · exact absurd hkind (by decide)
  · intro k v hk hkind
    rcases get_openTable hk with h | h <;> cases h
    · exact absurd hkind (by decide)
    · exact ⟨ascii "c", ascii "g", by decide, by decide, by decide⟩
  · intro k v hk hkind
    rcases get_openTable hk with h | h <;> cases h
    · exact absurd hkind (by decide)
    · exact absurd hkind (by decide)

theorem catalog_agrees_open :
    GoCatalog openTable.kv ∧ ¬SamePermission openTable (ascii "p") (ascii "c") ∧
      ¬SameNames openTable := by
  obtain ⟨hpermission, hnames⟩ := catalog_agrees_iff openTable goCatalog_openTable
  refine ⟨goCatalog_openTable, ?_, ?_⟩
  · rw [hpermission]
    intro hmember
    have hlink : Kvfsm.HasRecord openTable.kv (Shmevent.groupCommandKey (ascii "c") (ascii "g")) :=
      ⟨_, [], rfl, by decide⟩
    rcases hmember ⟨ascii "g", hlink, _, ascii "g", rfl, by decide⟩ with
      ⟨g, -, k, v, hk, hv⟩ | ⟨hlong, -⟩
    · obtain ⟨-, rfl⟩ := Shmevent.relationKey_eq_ok hk
      rcases get_openTable hv with h | h <;>
        exact absurd (Shmevent.systemKey_inj.mp (Prod.mk.inj h).1).1 (by decide)
    · exact absurd hlong (by decide)
  · rw [hnames]
    exact fun hnone => absurd (hnone (ascii "g")) (by decide)

/-- A stranger may run the command of a public group, and the group is called `g`; in the browser it
may not, and the group's name has a byte in front. -/
theorem catalogs_disagree :
    GoCatalog openTable.kv ∧
      Kvfsm.isPermittedForCommand openTable.kv (ascii "c") (ascii "p") = .ok true ∧
      isPermittedForCommand openTable (ascii "p") (ascii "c") = .ok false ∧
      (∃ v, openTable.kv.get (Shmevent.groupKey (ascii "g")) = some v ∧
        Shmevent.decodeGroupPayload v = .ok (ascii "g", true)) ∧
      getGroup openTable (ascii "g") = .ok ⟨ascii "g", 0x01 :: ascii "g"⟩ ∧
      listGroups openTable = .ok [⟨ascii "g", 0x01 :: ascii "g"⟩] :=
  ⟨goCatalog_openTable, by decide, by decide, ⟨_, rfl, by decide⟩, by decide, by decide⟩

end KvRaft.Web.Catalog
