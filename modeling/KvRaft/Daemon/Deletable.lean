import KvRaft.Daemon.Lifetime

/-! # Deleting what the catalog took in

A command and a group are put under a key that ends with their identifier, of any length. They are
deleted by a cascade, which looks for the command's relations under a key that holds the length of
the identifier in two bytes, and for the group's by parsing every relation. -/

namespace KvRaft.Daemon

open Bytes Shmevent Kvfsm EStateM

def cascadeEntry (key : Bytes) (t : Int) : Log := ⟨encodeCommand .cascadeDelete key [], t⟩

def Deletes (s : Store) (key : Bytes) (t : Int) : Prop :=
  (apply s (cascadeEntry key t)).1.err = none ∧ (apply s (cascadeEntry key t)).2.get key = none

/-- Once a leader has accepted the command, it can be deleted at any time, whatever
is applied before. -/
def CommandDeletable (id : Data) : Prop :=
  ∀ (env : Env) (n n' : Node) (name peerID : Data) (spec : Option Data), n.isLeader = true →
    commandPut env id.1 name.1 peerID.1 (spec.map (·.1)) n = .ok () n' →
    ∀ (log : List Log) (t : Int), Deletes (applyAll n'.store log) (commandKey id.1) t

/-- Once a leader has accepted the group, it can be deleted at any time, whatever is applied before,
as long as the relations are those of the two handlers. -/
def GroupDeletable (id : Data) : Prop :=
  ∀ (env : Env) (n n' : Node) (name : Data) (isPublic : Bool), n.isLeader = true →
    groupPut env id.1 name.1 isPublic n = .ok () n' →
    ∀ (log : List Log) (t : Int), BuiltRelations (applyAll n'.store log) →
      Deletes (applyAll n'.store log) (groupKey id.1) t

theorem decode_cascadeEntry (kind status : UInt8) (id : Data) (t : Int) :
    decodeCommand (cascadeEntry (systemKey kind status id.1) t).data =
      .ok ⟨.cascadeDelete, systemKey kind status id.1, []⟩ := by
  have hlen := id.2
  refine decodeCommand_encodeCommand ?_
  simp only [systemKey, List.length_cons, List.length_nil]
  omega

theorem deletes_iff {s : Store} {kind status : UInt8} {id : Data} {t : Int}
    (hself : ∀ ks, cascadeKeys s (systemKey kind status id.1) = .ok ks →
      systemKey kind status id.1 ∈ ks) :
    Deletes s (systemKey kind status id.1) t ↔
      ∃ ks, cascadeKeys s (systemKey kind status id.1) = .ok ks := by
  have hdec := decode_cascadeEntry kind status id t
  constructor
  · rintro ⟨hok, -⟩
    obtain ⟨ks, hks, -⟩ := get_cascade hdec hok
    exact ⟨ks, hks⟩
  · rintro ⟨ks, hks⟩
    have hok := accepted_of_cascadeKeys hdec hks
    obtain ⟨ks', hks', hget⟩ := get_cascade hdec hok
    exact ⟨hok, by rw [hget, if_pos (hself ks' hks')]⟩

theorem deletes_command_iff {s : Store} {id : Data} {t : Int} :
    Deletes s (commandKey id.1) t ↔ id.1.length ≤ 0xFFFF := by
  rw [commandKey, deletes_iff fun ks hks => (cascadeKeys_command hks).mpr (.inl rfl)]
  exact cascadeKeys_command_isOk

theorem deletes_group {s : Store} (hbuilt : BuiltRelations s) (id : Data) (t : Int) :
    Deletes s (groupKey id.1) t := by
  rw [groupKey, deletes_iff fun ks hks => (cascadeKeys_group hks).mpr (.inl rfl)]
  exact cascadeKeys_group_isOk hbuilt id.1

/-- The command without a name and a peer, in a store of its own. -/
def onlyCommand (id : Bytes) : Store := Store.set OrdMap.empty (commandKey id) [0, 0]

theorem commandPut_of_leader {env : Env} {n : Node} (hlead : n.isLeader = true)
    {id name peerID value : Bytes}
    {spec : Option Bytes} (hvalue : commandPutValue name peerID spec = .ok value) :
    commandPut env id name peerID spec n = applyOp env .set (commandKey id) value n := by
  have hrun : commandPut env id name peerID spec =
    ofExcept (commandPutValue name peerID spec) >>= fun value =>
      handleConfirmForward env .set (commandKey id) value true := rfl
  rw [hrun, hvalue]
  refine (EStateM.run_bind_of_ok rfl _).trans ?_
  rw [handleConfirmForward, handleConfirmForwardWith_of_leader hlead,
    applyConfirmWith_of_ne (by decide)]

theorem put_alone (id : Data) :
    commandPut {} id.1 [] [] none (Node.alone [] OrdMap.empty) =
      .ok () ((Node.alone [] OrdMap.empty).withStore (onlyCommand id.1)) := by
  have hvalue : commandPutValue [] [] none = .ok [0, 0] := by decide
  have hdec : decodeCommand (encodeCommand .set (commandKey id.1) [0, 0]) =
      .ok ⟨.set, commandKey id.1, [0, 0]⟩ :=
    @decode_putEntry id ⟨[], Data.length_nil_lt⟩ ⟨[], Data.length_nil_lt⟩ none _ hvalue
  have hcap : checkSystemListCap OrdMap.empty (commandKey id.1) = .ok () := rfl
  have happly : apply OrdMap.empty ⟨encodeCommand .set (commandKey id.1) [0, 0], 0⟩ =
      ({}, onlyCommand id.1) := by
    simp only [apply, hdec, applySet, hcap]
    rfl
  rw [commandPut_of_leader rfl hvalue, run_applyOp rfl,
    show (Node.alone [] OrdMap.empty).store = OrdMap.empty from rfl,
    show ({} : Env).now = 0 from rfl, happly]

/-- **What can be created can be deleted**: of the commands exactly those whose identifier fits into
a relation, and all groups. -/
theorem catalog_deletable_iff (id : Data) :
    (CommandDeletable id ↔ id.1.length ≤ 0xFFFF) ∧ GroupDeletable id := by
  refine ⟨⟨fun h => ?_, fun hlen => ?_⟩, ?_⟩
  · let nothing : Data := ⟨[], Data.length_nil_lt⟩
    exact deletes_command_iff.mp (h {} _ _ nothing nothing none rfl (put_alone id) [] 0)
  · intro env n n' name peerID spec hlead hput log t
    exact deletes_command_iff.mpr hlen
  · intro env n n' name isPublic hlead hput log t hbuilt
    exact deletes_group hbuilt id t

/-- A command whose identifier is too long is accepted, and its delete fails and
leaves the record. -/
theorem kept_of_long {id : Data} (hlong : 0xFFFF < id.1.length) :
    ∃ n', commandPut {} id.1 [] [] none (Node.alone [] OrdMap.empty) = .ok () n' ∧
      (apply n'.store (cascadeEntry (commandKey id.1) 0)).1.err ≠ none ∧
      (apply n'.store (cascadeEntry (commandKey id.1) 0)).2.get (commandKey id.1) =
        some [0, 0] := by
  refine ⟨_, put_alone id, ?_⟩
  rcases hks : cascadeKeys (onlyCommand id.1) (commandKey id.1) with e | ks
  · have hrefused :
        apply (onlyCommand id.1) (cascadeEntry (commandKey id.1) 0) = fail (onlyCommand id.1) e :=
      refused_of_cascadeKeys (decode_cascadeEntry _ _ id 0) hks
    refine ⟨fun hok => ?_, ?_⟩
    · exact Option.some_ne_none e ((congrArg (fun r => r.1.err) hrefused).symm.trans hok)
    · exact (congrArg (fun r => r.2.get (commandKey id.1)) hrefused).trans
        (OrdMap.get_insert_self ..)
  · exact absurd (cascadeKeys_command_isOk.mp ⟨ks, hks⟩) hlong.not_ge

theorem length_long_lt : (List.replicate 0x10000 (0x63 : UInt8)).length < 2 ^ 29 := by
  rw [List.length_replicate]
  decide

def longCommand : Data := ⟨List.replicate 0x10000 0x63, length_long_lt⟩

theorem length_longCommand : longCommand.1.length = 0x10000 := List.length_replicate

theorem long_command_kept :
    ∃ n', commandPut {} longCommand.1 [] [] none (Node.alone [] OrdMap.empty) = .ok () n' ∧
      (apply n'.store (cascadeEntry (commandKey longCommand.1) 0)).1.err ≠ none ∧
      (apply n'.store (cascadeEntry (commandKey longCommand.1) 0)).2.get
        (commandKey longCommand.1) = some [0, 0] :=
  kept_of_long (length_longCommand ▸ by decide)

end KvRaft.Daemon
