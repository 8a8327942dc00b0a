import KvRaft.Lib.Bytes
import KvRaft.Lib.Majority

/-! # Cluster configurations (`thirdparty/raft/configuration.go`)

The servers of a cluster and their votes, the checks on a configuration, and the change
by one command. -/

namespace KvRaft.Raft

abbrev ServerID := Bytes

abbrev ServerAddress := Bytes

inductive ServerSuffrage
  | voter
  | nonvoter
  | staging
deriving DecidableEq

structure Server where
  suffrage : ServerSuffrage
  id : ServerID
  address : ServerAddress
deriving DecidableEq

structure Configuration where
  servers : List Server
deriving DecidableEq

def Configuration.empty : Configuration := ⟨[]⟩

/-- The servers with a vote, in the order in which the loops over the servers meet them. -/
def Configuration.voters (c : Configuration) : List ServerID :=
  (c.servers.filter fun s => s.suffrage = .voter).map (·.id)

def hasVote (c : Configuration) (id : ServerID) : Bool :=
  match c.servers.find? fun s => s.id = id with
  | some s => s.suffrage = .voter
  | none => false

def inConfiguration (c : Configuration) (id : ServerID) : Bool := c.servers.any fun s => s.id = id

def quorumSize (c : Configuration) : Nat := c.voters.length / 2 + 1

inductive ConfigurationError
  /-- `empty ID in configuration: %v` -/
  | emptyID (c : Configuration)
  /-- `empty address in configuration: %v` -/
  | emptyAddress (s : Server)
  /-- `found duplicate ID in configuration: %v` -/
  | duplicateID (id : ServerID)
  /-- `found duplicate address in configuration: %v` -/
  | duplicateAddress (address : ServerAddress)
  /-- `need at least one voter in configuration: %v` -/
  | noVoter (c : Configuration)
  /-- `configuration changed since %v (latest is %v)` -/
  | changedSince (prevIndex currentIndex : Nat)
deriving DecidableEq

/-- The loop of `checkConfiguration`, with the sets and the counter it keeps. -/
def checkServers (c : Configuration) :
    List Server → List ServerID → List ServerAddress → Nat → Except ConfigurationError Nat
  | [], _, _, voters => .ok voters
  | s :: rest, idSet, addressSet, voters =>
    if s.id = [] then .error (.emptyID c)
    else if s.address = [] then .error (.emptyAddress s)
    else if s.id ∈ idSet then .error (.duplicateID s.id)
    else if s.address ∈ addressSet then .error (.duplicateAddress s.address)
    else checkServers c rest (s.id :: idSet) (s.address :: addressSet)
      (if s.suffrage = .voter then voters + 1 else voters)

def checkConfiguration (c : Configuration) : Except ConfigurationError Unit := do
  let voters ← checkServers c c.servers [] [] 0
  if voters = 0 then throw (.noVoter c)

inductive ConfigurationChangeCommand
  | addVoter
  | addNonvoter
  | demoteVoter
  | removeServer
  | promote
deriving DecidableEq

structure ConfigurationChangeRequest where
  command : ConfigurationChangeCommand
  serverID : ServerID
  serverAddress : ServerAddress
  /-- If not zero, the index of the only configuration to which the change may be applied. -/
  prevIndex : Nat
deriving DecidableEq

/-- A loop over the servers that changes the first one it looks for and stops there; `none` if there
is no such server. -/
def updateFirst (p : Server → Bool) (f : Server → Server) : List Server → Option (List Server)
  | [] => none
  | s :: rest => if p s then some (f s :: rest) else (updateFirst p f rest).map (s :: ·)

def changeServers (servers : List Server) (change : ConfigurationChangeRequest) : List Server :=
  match change.command with
  | .addVoter =>
    let newServer : Server := ⟨.voter, change.serverID, change.serverAddress⟩
    (updateFirst (fun s => s.id = change.serverID)
      (fun s =>
        if s.suffrage = .voter then { s with address := change.serverAddress } else newServer)
      servers).getD (servers ++ [newServer])
  | .addNonvoter =>
    let newServer : Server := ⟨.nonvoter, change.serverID, change.serverAddress⟩
    (updateFirst (fun s => s.id = change.serverID)
      (fun s =>
        if s.suffrage ≠ .nonvoter then { s with address := change.serverAddress } else newServer)
      servers).getD (servers ++ [newServer])
  | .demoteVoter =>
    (updateFirst (fun s => s.id = change.serverID) (fun s => { s with suffrage := .nonvoter })
      servers).getD servers
  | .removeServer => servers.eraseP fun s => s.id = change.serverID
  | .promote =>
    (updateFirst (fun s => s.id = change.serverID && s.suffrage = .staging)
      (fun s => { s with suffrage := .voter })
      servers).getD servers

def nextConfiguration (current : Configuration) (currentIndex : Nat)
    (change : ConfigurationChangeRequest) :
    Except ConfigurationError Configuration := do
  if 0 < change.prevIndex ∧ change.prevIndex ≠ currentIndex then
    throw (.changedSince change.prevIndex currentIndex)
  let configuration : Configuration := ⟨changeServers current.servers change⟩
  checkConfiguration configuration
  return configuration

/-! ## What the check accepts -/

variable {c current : Configuration} {change : ConfigurationChangeRequest} {i : Nat}

theorem checkServers_ok {servers : List Server} {idSet : List ServerID}
    {addressSet : List ServerAddress} {voters voters' : Nat}
    (h : checkServers c servers idSet addressSet voters = .ok voters') :
    (servers.map (·.id)).Nodup ∧ (∀ s ∈ servers, s.id ∉ idSet) ∧
      voters' = voters + (servers.filter fun s => s.suffrage = .voter).length := by
  induction servers generalizing idSet addressSet voters with
  | nil =>
    cases h
    exact ⟨.nil, by simp, rfl⟩
  | cons s rest ih =>
    rw [checkServers] at h
    repeat' split at h
    all_goals try cases h
    all_goals
      rename_i hid _ hv
      obtain ⟨hnodup, hnew, hcount⟩ := ih h
      refine ⟨?_, ?_, ?_⟩
      · rw [List.map_cons, List.nodup_cons]
        refine ⟨fun hmem => ?_, hnodup⟩
        obtain ⟨s', hs', heq⟩ := List.mem_map.mp hmem
        exact hnew s' hs' (heq ▸ List.mem_cons_self)
      · intro s' hs'
        rcases List.mem_cons.mp hs' with rfl | hs'
        · exact hid
        · exact fun hmem => hnew s' hs' (List.mem_cons_of_mem _ hmem)
      · rw [hcount]
        simp only [hv, decide_true, decide_false, List.filter_cons_of_pos, List.filter_cons_of_neg,
          Bool.false_eq_true, not_false_eq_true, List.length_cons, Nat.add_assoc, Nat.add_comm 1]

/-- The configurations that pass the check, as far as votes are concerned. -/
structure Configuration.Valid (c : Configuration) : Prop where
  nodup : (c.servers.map (·.id)).Nodup
  voters_ne : c.voters ≠ []

theorem checkConfiguration_ok (h : checkConfiguration c = .ok ()) : c.Valid := by
  rw [checkConfiguration] at h
  cases hv : checkServers c c.servers [] [] 0 with
  | error e =>
    rw [hv] at h
    cases h
  | ok voters =>
    obtain ⟨hnodup, -, hcount⟩ := checkServers_ok hv
    refine ⟨hnodup, fun hnil => ?_⟩
    have hlen := congrArg List.length hnil
    rw [Configuration.voters, List.length_map, List.length_nil] at hlen
    rw [hv] at h
    simp only [bind, Except.bind] at h
    rw [if_pos (by omega)] at h
    cases h

theorem Configuration.Valid.nodup_voters (h : c.Valid) : c.voters.Nodup :=
  h.nodup.sublist (List.filter_sublist.map _)

theorem mem_voters {i : ServerID} :
    i ∈ c.voters ↔ ∃ s ∈ c.servers, s.suffrage = .voter ∧ s.id = i := by
  simp only [Configuration.voters, List.mem_map, List.mem_filter, decide_eq_true_eq, and_assoc]

theorem nextConfiguration_ok
    (h : nextConfiguration current i change = .ok c) :
    c = ⟨changeServers current.servers change⟩ ∧ c.Valid := by
  rw [nextConfiguration] at h
  split at h
  · cases h
  · simp only [bind, Except.bind, pure, Except.pure] at h
    split at h
    · cases h
    · rename_i hcheck
      cases h
      exact ⟨rfl, checkConfiguration_ok hcheck⟩

/-! ## A change concerns one server -/

/-- Apart from the servers with this id, the two lists have the same servers. -/
def SameOthers (id : ServerID) (servers servers' : List Server) : Prop :=
  ∀ s, s.id ≠ id → (s ∈ servers' ↔ s ∈ servers)

theorem sameOthers_updateFirst {id : ServerID} {p : Server → Bool} {f : Server → Server}
    {servers orElse : List Server} (hp : ∀ s, p s → s.id = id) (hf : ∀ s, s.id = id → (f s).id = id)
    (helse : SameOthers id servers orElse) :
    SameOthers id servers ((updateFirst p f servers).getD orElse) := by
  have hsome : ∀ {l servers}, updateFirst p f servers = some l → SameOthers id servers l := by
    intro l servers h
    induction servers generalizing l with
    | nil => cases h
    | cons s rest ih =>
      intro s' hs'
      rw [updateFirst] at h
      split at h
      · next hs =>
        cases h
        have hne : s' ≠ f s ∧ s' ≠ s :=
          ⟨fun heq => hs' (heq ▸ hf s (hp s hs)), fun heq => hs' (heq ▸ hp s hs)⟩
        simp [hne]
      · obtain ⟨rest', hrest, rfl⟩ := Option.map_eq_some_iff.mp h
        simp [ih hrest s' hs']
  cases h : updateFirst p f servers with
  | none => exact helse
  | some l => exact hsome h

theorem sameOthers_changeServers (servers : List Server) (change : ConfigurationChangeRequest) :
    SameOthers change.serverID servers (changeServers servers change) := by
  have happend : ∀ suffrage, SameOthers change.serverID servers
      (servers ++ [⟨suffrage, change.serverID, change.serverAddress⟩]) := by
    intro suffrage s hs
    simp only [List.mem_append, List.mem_singleton, or_iff_left_iff_imp]
    rintro rfl
    exact absurd rfl hs
  unfold changeServers
  split
  · refine sameOthers_updateFirst (by simp) (fun s hs => ?_) (happend _)
    split
    · exact hs
    · rfl
  · refine sameOthers_updateFirst (by simp) (fun s hs => ?_) (happend _)
    split
    · exact hs
    · rfl
  · exact sameOthers_updateFirst (by simp) (fun s hs => hs) fun _ _ => Iff.rfl
  · exact fun s hs => List.mem_eraseP_of_neg (by simpa using hs)
  · exact sameOthers_updateFirst (by simp +contextual) (fun s hs => hs) fun _ _ => Iff.rfl

theorem mem_voters_nextConfiguration
    (h : nextConfiguration current i change = .ok c) {id : ServerID} (hid : id ≠ change.serverID) :
    id ∈ current.voters ↔ id ∈ c.voters := by
  obtain ⟨rfl, -⟩ := nextConfiguration_ok h
  have hothers := sameOthers_changeServers current.servers change
  rw [mem_voters, mem_voters]
  constructor
  · rintro ⟨s, hs, hvoter, rfl⟩
    exact ⟨s, (hothers s hid).mpr hs, hvoter, rfl⟩
  · rintro ⟨s, hs, hvoter, rfl⟩
    exact ⟨s, (hothers s hid).mp hs, hvoter, rfl⟩

theorem adjacent_nextConfiguration
    (h : nextConfiguration current i change = .ok c) :
    Adjacent current.voters.toFinset c.voters.toFinset := by
  refine ⟨change.serverID, fun id hid => ?_⟩
  rw [List.mem_toFinset, List.mem_toFinset]
  exact mem_voters_nextConfiguration h hid

/-- Whatever change the check lets through, a majority of the voters before it and one of the voters
after it have a server in common. -/
theorem nextConfiguration_meet {current c : Configuration} {i : Nat}
    {change : ConfigurationChangeRequest}
    (h : nextConfiguration current i change = .ok c) {Q Q' : Set ServerID}
    (hQ : Majority current.voters.toFinset Q) (hQ' : Majority c.voters.toFinset Q') :
    ∃ v, v ∈ Q ∧ v ∈ Q' :=
  hQ.meet_adjacent (adjacent_nextConfiguration h) hQ'

def threeVoters : Configuration := ⟨[⟨.voter, [1], [1]⟩, ⟨.voter, [2], [2]⟩, ⟨.voter, [3], [3]⟩]⟩

theorem nextConfiguration_meet_addVoter :
    nextConfiguration threeVoters 1 ⟨.addVoter, [4], [4], 0⟩ =
      .ok ⟨threeVoters.servers ++ [⟨.voter, [4], [4]⟩]⟩ ∧
      ∃ v : ServerID, v ∈ ({[1], [2]} : Set ServerID) ∧ v ∈ ({[2], [3], [4]} : Set ServerID) := by
  have hnext : nextConfiguration threeVoters 1 ⟨.addVoter, [4], [4], 0⟩ =
      .ok ⟨threeVoters.servers ++ [⟨.voter, [4], [4]⟩]⟩ := rfl
  exact ⟨hnext, nextConfiguration_meet hnext
    ⟨{[1], [2]}, by decide, by decide, by simp⟩ ⟨{[2], [3], [4]}, by decide, by decide, by simp⟩⟩

theorem Configuration.Valid.majority (h : c.Valid) {G : Finset ServerID} {Q : Set ServerID}
    (hsub : ∀ v ∈ G, v ∈ c.voters) (hcard : quorumSize c ≤ G.card) (hQ : ↑G ⊆ Q) :
    Majority c.voters.toFinset Q := by
  refine ⟨G, fun v hv => List.mem_toFinset.mpr (hsub v hv), ?_, hQ⟩
  rw [List.toFinset_card_of_nodup h.nodup_voters]
  rw [quorumSize] at hcard
  omega

end KvRaft.Raft
