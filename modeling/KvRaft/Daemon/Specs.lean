import KvRaft.Daemon.Handle
import KvRaft.Daemon.Sync
import KvRaft.Kvfsm.Cascade
import KvRaft.Kvfsm.Grants

/-! # A command's spec along its history

A put of a command carries a spec, an empty one to clear it, or none at all, and then the spec that
is stored is kept. The three are told apart by the format of the payload, which the state machine
reads again when it merges an incoming record with the stored one. -/

namespace KvRaft.Daemon

open Bytes Shmevent Kvfsm

/-! ## Histories -/

/-- What happens in the life of a command: a put with its name, its peer and the spec it carries, a
delete, or an entry about something else. -/
inductive CommandEvent
  | put (name peerID : Data) (spec : Option Data)
  | delete
  | other (l : Log)

def commandPutValue (name peerID : Bytes) (spec : Option Bytes) : Except Err Bytes :=
  match spec with
  | some [] => encodeCommandPayloadClearingSpec name peerID
  | some spec => encodeCommandPayloadWithSpec name peerID spec
  | none => encodeCommandPayload name peerID

/-- The keys that an entry names as keys to write: of a transaction those of its writes. -/
def namedKeys (c : Command) : List Bytes :=
  match c.op with
  | .confirm => [c.key, c.value]
  | .txn =>
    match decodeTxnPayload c.value with
    | .ok ops => (ops.filter fun o => !o.isCompare).map TxnOpSpec.key
    | .error _ => []
  | .unknown _ _ => []
  | _ => [c.key]

/-- One event on a store: a put or a delete that is accepted, or an entry that does not name the
command's record. -/
inductive CommandStep (id : Data) (s : Store) : CommandEvent → Store → Prop
  | put {name peerID : Data} {spec : Option Data} {value : Bytes} {t : Int}
      (hvalue : commandPutValue name.1 peerID.1 (spec.map (·.1)) = .ok value)
      (haccepted : (apply s ⟨encodeCommand .set (commandKey id.1) value, t⟩).1.err = none) :
      CommandStep id s (.put name peerID spec)
        (apply s ⟨encodeCommand .set (commandKey id.1) value, t⟩).2
  | delete {t : Int}
      (haccepted : (apply s ⟨encodeCommand .cascadeDelete (commandKey id.1) [], t⟩).1.err = none) :
      CommandStep id s .delete (apply s ⟨encodeCommand .cascadeDelete (commandKey id.1) [], t⟩).2
  | other {l : Log} (hkeys : ∀ c, decodeCommand l.data = .ok c → commandKey id.1 ∉ namedKeys c) :
      CommandStep id s (.other l) (apply s l).2

inductive History (id : Data) (s₀ : Store) : List CommandEvent → Store → Prop
  | start : History id s₀ [] s₀
  | step {es : List CommandEvent} {e : CommandEvent} {s s' : Store} (h : History id s₀ es s)
      (hstep : CommandStep id s e s') : History id s₀ (es ++ [e]) s'

def CommandEvent.isOther : CommandEvent → Bool
  | .other _ => true
  | _ => false

def CommandEvent.isDelete : CommandEvent → Bool
  | .delete => true
  | _ => false

def CommandEvent.carried : CommandEvent → Option Bytes
  | .put _ _ spec => spec.map (·.1)
  | _ => none

def lastChange (es : List CommandEvent) : Option CommandEvent := es.reverse.find? (!·.isOther)

/-- The spec of the last put that carried one, since the last delete. -/
def lastSpec (es : List CommandEvent) : Bytes :=
  ((es.reverse.takeWhile (!·.isDelete)).findSome? CommandEvent.carried).getD []

/-! ## Records -/

variable {name peerID value key : Bytes} {spec : Option Bytes} {s : Store} {l : Log} {id : Data}

theorem decode_commandPutValue
    (h : commandPutValue name peerID spec = .ok value) :
    decodeCommandPayloadFull value = .ok (name, peerID, spec.getD []) ∧
      decodeCommandPayloadSpec value = .ok (spec.getD [], spec.isSome) := by
  match spec with
  | none => exact decodeCommandPayloadFull_encodeCommandPayload h
  | some [] =>
    obtain ⟨hname, hpeer, rfl⟩ := encodeCommandPayloadClearingSpec_ok h
    exact decodeCommandPayloadFull_commandPayloadV2 hname hpeer []
  | some (b :: spec) =>
    obtain ⟨hname, hpeer, rfl⟩ := encodeCommandPayloadWithSpec_ok (List.cons_ne_nil b spec) h
    exact decodeCommandPayloadFull_commandPayloadV2 hname hpeer (b :: spec)

def storedSpec (s : Store) (key : Bytes) : Bytes :=
  match s.get key with
  | none => []
  | some v =>
    match decodeCommandPayloadFull v with
    | .ok (_, _, spec) => spec
    | .error _ => []

/-- A record that is accepted has the incoming name and peer, and the stored spec if
it came without. -/
theorem decode_preserveCommandSpec {id v : Bytes}
    (hvalue : commandPutValue name peerID spec = .ok value)
    (hstored : ∀ old, s.get (commandKey id) = some old → ∃ r, decodeCommandPayloadFull old = .ok r)
    (h : preserveCommandSpec s (commandKey id) value = .ok v) :
    decodeCommandPayloadFull v = .ok (name, peerID, spec.getD (storedSpec s (commandKey id))) := by
  obtain ⟨hfull, hspec⟩ := decode_commandPutValue hvalue
  rw [preserveCommandSpec, if_neg (by simp [systemKind, commandKey, systemKey])] at h
  simp only [hspec] at h
  cases spec with
  | some spec =>
    cases h
    exact hfull
  | none =>
    simp only [Option.isSome_none, Option.getD_none] at h hfull ⊢
    unfold storedSpec
    rcases hget : s.get (commandKey id) with _ | old <;> rw [hget] at h <;> dsimp only at h ⊢
    · cases h
      exact hfull
    obtain ⟨⟨oldName, oldPeer, oldSpec⟩, hold⟩ := hstored old hget
    obtain ⟨present, hpresent⟩ := decodeCommandPayloadSpec_of_full hold
    simp only [hpresent] at h
    simp only [hold]
    split_ifs at h with hempty
    · cases h
      rw [hempty]
      exact hfull
    · have hincoming : decodeCommandPayload value = .ok (name, peerID) := by
        rw [decodeCommandPayload, hfull]
        rfl
      simp only [hincoming] at h
      rcases hv : encodeCommandPayloadWithSpec name peerID oldSpec with e | v' <;> rw [hv] at h
      · cases h
      · cases h
        obtain ⟨hname, hpeer, rfl⟩ := encodeCommandPayloadWithSpec_ok hempty hv
        exact (decodeCommandPayloadFull_commandPayloadV2 hname hpeer oldSpec).1

/-! ## Entries about something else -/

theorem mem_cascadeKeys {k : Bytes} {ks : List Bytes} (h : cascadeKeys s key = .ok ks)
    (hk : k ∈ ks) : k = key ∨ allGroupCommandsPrefix <+: k ∨ allPeerGroupsPrefix <+: k := by
  unfold cascadeKeys at h
  rcases hkind : systemKind key with _ | kind <;> rw [hkind] at h
  · cases h
  dsimp only at h
  split_ifs at h
  · rcases hp : groupCommandKey (key.drop systemKeyPrefixLen) [] with e | p <;> rw [hp] at h
    · cases h
    cases h
    rcases List.mem_append.mp hk with hk | hk
    · exact .inr (.inl ((relationKey_mem_list hp).trans (mem_map_fst_scanPrefix.mp hk).1))
    · exact .inl (List.mem_singleton.mp hk)
  · rcases hcs : matchingKeys parseGroupCommandKey (key.drop systemKeyPrefixLen)
      (s.scanPrefix allGroupCommandsPrefix 0) with e | cs <;> rw [hcs] at h
    · cases h
    rcases hps : matchingKeys parsePeerGroupKey (key.drop systemKeyPrefixLen)
      (s.scanPrefix allPeerGroupsPrefix 0) with e | ps <;> rw [hps] at h
    · cases h
    cases h
    rcases List.mem_append.mp hk with hk | hk
    · exact .inr (.inl (mem_map_fst_scanPrefix.mp (mem_of_matchingKeys hcs k hk)).1)
    rcases List.mem_append.mp hk with hk | hk
    · exact .inr (.inr (mem_map_fst_scanPrefix.mp (mem_of_matchingKeys hps k hk)).1)
    · exact .inl (List.mem_singleton.mp hk)

theorem mem_planTxn_key {w : Write Bytes Bytes} (h : w ∈ planTxn s value) :
    ∃ ops o, decodeTxnPayload value = .ok ops ∧ o ∈ ops ∧ o.isCompare = false ∧ o.key = w.key := by
  unfold planTxn at h
  split at h
  · cases h
  · rename_i ops hops
    split at h
    · obtain ⟨o, ho, hw⟩ := List.mem_flatMap.mp h
      unfold planTxnOp at hw
      split_ifs at hw with hc hset
      · cases hw
      all_goals
        cases List.mem_singleton.mp hw
        exact ⟨ops, o, hops, ho, Bool.eq_false_iff.mpr hc, rfl⟩
    · cases h

theorem mem_plan_key {c : Command} (hdec : decodeCommand l.data = .ok c)
    {w : Write Bytes Bytes} (hw : w ∈ plan s l) :
    w.key ∈ namedKeys c ∨ allGroupCommandsPrefix <+: w.key ∨ allPeerGroupsPrefix <+: w.key := by
  obtain ⟨op, key, value⟩ := c
  simp only [plan, hdec] at hw
  cases op with
  | set => exact .inl (List.mem_singleton.mpr (planSet_key hw))
  | del =>
    rw [List.mem_singleton.mp hw]
    exact .inl (List.mem_singleton.mpr rfl)
  | confirm =>
    left
    rcases planConfirm_key hw with hkey | hvalue
    · exact List.mem_cons.mpr (.inl hkey)
    · exact List.mem_cons_of_mem _ (List.mem_singleton.mpr hvalue)
  | cascadeDelete =>
    rcases hks : cascadeKeys s key with e | ks <;> simp only [planCascadeDelete, hks] at hw
    · cases hw
    · obtain ⟨k, hk, rfl⟩ := List.mem_map.mp hw
      exact (mem_cascadeKeys hks hk).imp_left List.mem_singleton.mpr
  | consumeInvite => exact .inl (List.mem_singleton.mpr (planConsumeInvite_key hw))
  | consumeExecInvite => exact .inl (List.mem_singleton.mpr (planConsumeExecInvite_key hw))
  | appendCommandRequest =>
    rcases mem_planAppendCommandRequest hw with ⟨hkey, -⟩ | hlist
    · exact .inl (List.mem_singleton.mpr hkey)
    · exact .inr (.inr hlist)
  | txn =>
    obtain ⟨ops, o, hops, ho, hwrite, hkey⟩ := mem_planTxn_key hw
    left
    simp only [namedKeys, hops, ← hkey]
    exact List.mem_map_of_mem (List.mem_filter.mpr ⟨ho, by simp [hwrite]⟩)
  | unknown b hb => cases hw

theorem get_commandKey_of_other {id : Bytes}
    (h : ∀ c, decodeCommand l.data = .ok c → commandKey id ∉ namedKeys c) :
    (apply s l).2.get (commandKey id) = s.get (commandKey id) := by
  rw [apply_store]
  refine Write.get_perform_of_not_written s fun w hw hkey => ?_
  rcases hdec : decodeCommand l.data with e | c
  · simp [plan, hdec] at hw
  rcases mem_plan_key hdec hw with hnamed | ⟨r, hr⟩ | ⟨r, hr⟩
  · exact h c hdec (hkey ▸ hnamed)
  · exact absurd (systemKey_inj.mp (hr.trans hkey.symm)).1 (by decide)
  · exact absurd (systemKey_inj.mp (hr.trans hkey.symm)).1 (by decide)

/-! ## Puts and deletes -/

theorem length_commandPutValue
    (h : commandPutValue name peerID spec = .ok value) :
    value.length ≤ name.length + peerID.length + (spec.getD []).length + 6 := by
  match spec with
  | none =>
    obtain ⟨-, rfl⟩ := encodeCommandPayload_ok h
    simp [length_beBytes]
    omega
  | some [] =>
    obtain ⟨-, -, rfl⟩ := encodeCommandPayloadClearingSpec_ok h
    simp [commandPayloadV2, length_beBytes]
    omega
  | some (b :: spec) =>
    obtain ⟨-, -, rfl⟩ := encodeCommandPayloadWithSpec_ok (List.cons_ne_nil b spec) h
    simp [commandPayloadV2, length_beBytes]
    omega

theorem decode_putEntry {id name peerID : Data} {spec : Option Data} {value : Bytes}
    (h : commandPutValue name.1 peerID.1 (spec.map (·.1)) = .ok value) :
    decodeCommand (encodeCommand .set (commandKey id.1) value) =
      .ok ⟨.set, commandKey id.1, value⟩ := by
  have hlen := length_commandPutValue h
  have hspec : ((spec.map (·.1)).getD []).length < 2 ^ 29 := by
    cases spec with
    | none => simp
    | some spec => exact spec.2
  have := id.2
  have := name.2
  have := peerID.2
  refine decodeCommand_encodeCommand ?_
  simp only [commandKey, systemKey, List.length_cons]
  omega

theorem get_put (hdec : decodeCommand l.data = .ok ⟨.set, key, value⟩)
    (haccepted : (apply s l).1.err = none) :
    ∃ v, preserveCommandSpec s key value = .ok v ∧ (apply s l).2.get key = some v := by
  simp only [apply, hdec, applySet] at haccepted ⊢
  revert haccepted
  rcases checkSystemListCap s key with e | ⟨⟩
  · intro h
    cases h
  rcases checkGroupNameUnique s key value with e | ⟨⟩
  · intro h
    cases h
  rcases preserveCommandSpec s key value with e | v
  · intro h
    cases h
  · refine fun _ => ⟨v, rfl, ?_⟩
    dsimp only
    rw [Store.set, OrdMap.get_insert, if_pos rfl]

theorem get_delete {t : Int}
    (haccepted : (apply s ⟨encodeCommand .cascadeDelete (commandKey id.1) [], t⟩).1.err = none) :
    (apply s ⟨encodeCommand .cascadeDelete (commandKey id.1) [], t⟩).2.get (commandKey id.1) =
      none := by
  have hdec : decodeCommand (encodeCommand .cascadeDelete (commandKey id.1) []) =
      .ok ⟨.cascadeDelete, commandKey id.1, []⟩ := by
    have := id.2
    refine decodeCommand_encodeCommand ?_
    simp only [commandKey, systemKey, List.length_cons, List.length_nil]
    omega
  obtain ⟨ks, hks, hget⟩ := get_cascade hdec haccepted
  rw [hget, if_pos ((cascadeKeys_command hks).mpr (.inl rfl))]

/-! ## The record after a history -/

section Snoc

variable (es : List CommandEvent)

theorem lastChange_snoc (e : CommandEvent) :
    lastChange (es ++ [e]) = if e.isOther then lastChange es else some e := by
  rw [lastChange, List.reverse_append, List.reverse_singleton, List.singleton_append,
    List.find?_cons]
  cases e.isOther <;> rfl

theorem lastSpec_snoc (e : CommandEvent) :
    lastSpec (es ++ [e]) = if e.isDelete then [] else e.carried.getD (lastSpec es) := by
  rw [lastSpec, List.reverse_append, List.reverse_singleton, List.singleton_append,
    List.takeWhile_cons]
  cases e.isDelete with
  | true => rfl
  | false =>
    simp only [Bool.not_false, if_true, Bool.false_eq_true, if_false, List.findSome?_cons]
    cases e.carried <;> rfl

end Snoc

/-- What the store holds under a command's key: the record of the last put, if that is the last
change, and otherwise none. The second part says that no spec is left over then. -/
structure Stored (s : Store) (key : Bytes) (es : List CommandEvent) : Prop where
  put : ∀ name peerID spec, lastChange es = some (.put name peerID spec) →
    ∃ v, s.get key = some v ∧ decodeCommandPayloadFull v = .ok (name.1, peerID.1, lastSpec es)
  none : (∀ name peerID spec, lastChange es ≠ some (.put name peerID spec)) →
    s.get key = none ∧ lastSpec es = []

theorem Stored.decodes {es : List CommandEvent} (h : Stored s key es) {old : Bytes}
    (hold : s.get key = some old) : ∃ r, decodeCommandPayloadFull old = .ok r := by
  by_cases hput : ∃ name peerID spec, lastChange es = some (.put name peerID spec)
  · obtain ⟨name, peerID, spec, hlast⟩ := hput
    obtain ⟨v, hv, hdec⟩ := h.put name peerID spec hlast
    cases hold.symm.trans hv
    exact ⟨_, hdec⟩
  · have := (h.none fun name peerID spec hlast => hput ⟨name, peerID, spec, hlast⟩).1
    cases hold.symm.trans this

theorem Stored.storedSpec {es : List CommandEvent} (h : Stored s key es) :
    storedSpec s key = lastSpec es := by
  unfold Daemon.storedSpec
  by_cases hput : ∃ name peerID spec, lastChange es = some (.put name peerID spec)
  · obtain ⟨name, peerID, spec, hlast⟩ := hput
    obtain ⟨v, hv, hdec⟩ := h.put name peerID spec hlast
    simp only [hv, hdec]
  · obtain ⟨hnone, hspec⟩ := h.none fun name peerID spec hlast => hput ⟨name, peerID, spec, hlast⟩
    simp only [hnone, hspec]

theorem Stored.step {s' : Store} {es : List CommandEvent} {e : CommandEvent}
    (h : Stored s (commandKey id.1) es) (hstep : CommandStep id s e s') :
    Stored s' (commandKey id.1) (es ++ [e]) := by
  cases hstep with
  | @put name peerID spec value t hvalue haccepted =>
    obtain ⟨v, hv, hget⟩ := get_put (decode_putEntry hvalue) haccepted
    have hdec := decode_preserveCommandSpec hvalue (fun _ => h.decodes) hv
    rw [h.storedSpec] at hdec
    have hspec : lastSpec (es ++ [.put name peerID spec]) = (spec.map (·.1)).getD (lastSpec es) :=
      lastSpec_snoc es _
    have hlast : lastChange (es ++ [.put name peerID spec]) = some (.put name peerID spec) :=
      lastChange_snoc es _
    constructor
    · intro name' peerID' spec' hput
      cases hlast.symm.trans hput
      exact ⟨v, hget, hspec ▸ hdec⟩
    · intro hno
      exact absurd hlast (hno name peerID spec)
  | delete haccepted =>
    have hlast : lastChange (es ++ [.delete]) = some .delete := lastChange_snoc es _
    constructor
    · intro name peerID spec hput
      cases hlast.symm.trans hput
    · exact fun _ => ⟨get_delete haccepted, lastSpec_snoc es .delete⟩
  | @other l hkeys =>
    have hlast : lastChange (es ++ [.other l]) = lastChange es := lastChange_snoc es _
    have hspec : lastSpec (es ++ [.other l]) = lastSpec es := lastSpec_snoc es _
    have hget := get_commandKey_of_other (s := s) hkeys
    constructor
    · rw [hlast, hspec, hget]
      exact h.put
    · rw [hlast, hspec, hget]
      exact h.none

/-- **A command's record.** After any history of accepted puts and deletes of a command, with other
entries in between, from a store without it: if the last change was a put, the record decodes to the
name and the peer of that put, and to the spec carried by the last put that carried one since the
last delete. -/
theorem stored_command (id : Data) (s₀ s : Store) (es : List CommandEvent)
    (hstart : s₀.get (commandKey id.1) = none) (h : History id s₀ es s) (name peerID : Data)
    (spec : Option Data) (hlast : lastChange es = some (.put name peerID spec)) :
    ∃ v, s.get (commandKey id.1) = some v ∧
      decodeCommandPayloadFull v = .ok (name.1, peerID.1, lastSpec es) := by
  have hstored : Stored s (commandKey id.1) es := by
    clear hlast
    induction h with
    | start => exact ⟨fun _ _ _ hput => (nomatch hput), fun _ => ⟨hstart, rfl⟩⟩
    | step _ hstep ih => exact ih.step hstep
  exact hstored.put name peerID spec hlast

def word (s : String) : Data := (Data.ofBytes (ascii s)).getD ⟨[], Data.length_nil_lt⟩

def renamedCommand : Data := word "c"

/-- The command is put with a spec, and then renamed without one. -/
def renameHistory : List CommandEvent :=
  [.put (word "a") (word "p") (some (word "spec")), .put (word "b") (word "q") none]

theorem stored_command_renamed :
    ∃ s v, History renamedCommand OrdMap.empty renameHistory s ∧
      s.get (commandKey (ascii "c")) = some v ∧
      decodeCommandPayloadFull v = .ok (ascii "b", ascii "q", ascii "spec") := by
  have hfirst :
      CommandStep renamedCommand OrdMap.empty (.put (word "a") (word "p") (some (word "spec"))) _ :=
    @CommandStep.put _ _ _ _ _ (commandPayloadV2 (ascii "a") (ascii "p") (ascii "spec")) 0
      (by decide) (by decide)
  have hsecond :
      CommandStep renamedCommand
        (apply OrdMap.empty ⟨encodeCommand .set (commandKey renamedCommand.1)
      (commandPayloadV2 (ascii "a") (ascii "p") (ascii "spec")), 0⟩).2
      (.put (word "b") (word "q") none) _ :=
    @CommandStep.put _ _ _ _ _ (beBytes 2 1 ++ (ascii "b" ++ ascii "q")) 0 (by decide) (by decide)
  have hhistory := History.step (.step .start hfirst) hsecond
  obtain ⟨v, hv, hdec⟩ :=
    stored_command renamedCommand OrdMap.empty _ renameHistory rfl hhistory _ _ none rfl
  exact ⟨_, v, hhistory, hv, hdec⟩

end KvRaft.Daemon
