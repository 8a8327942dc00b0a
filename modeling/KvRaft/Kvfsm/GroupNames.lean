import KvRaft.Encoding.Utf8
import KvRaft.Kvfsm.Caps

/-! # Names of groups

A `Set` of a group record is refused where another group has the name. The check scans a range that
holds every group whose identifier is valid UTF-8, and fails on a record that does not decode, so it
decides the question as long as the stored groups have such identifiers and decode. Both follow from
the checks themselves, since nothing but a `Set` creates a group record. -/

namespace KvRaft.Kvfsm

open Bytes Shmevent Encoding

def groupName (s : Store) (id : Bytes) : Option Bytes :=
  (s.get (groupKey id)).bind fun v => (decodeGroupPayload v).toOption.map Prod.fst

/-- An entry of a log in which groups are put under UTF-8 identifiers, and confirmations are those
that `permitConfirm` builds. -/
structure CatalogEntry (l : Log) : Prop where
  txn : NoSystemTxn l
  confirm : ∀ key value, decodeCommand l.data = .ok ⟨.confirm, key, value⟩ →
    ∃ kind peerID, key = systemKey kind statusPending peerID ∧
      value = systemKey kind statusConfirmed peerID
  group : ∀ id value, decodeCommand l.data = .ok ⟨.set, groupKey id, value⟩ → Utf8.valid id = true

/-- The groups of the store have UTF-8 identifiers and records that decode, and no two
have one name. -/
structure NamedApart (s : Store) : Prop where
  named : ∀ id v, s.get (groupKey id) = some v → Utf8.valid id = true ∧
    ∃ name, groupName s id = some name
  apart : ∀ id id' name, groupName s id = some name → groupName s id' = some name → id = id'

/-! ## The check -/

variable {id v name : Bytes} {s : Store} {l : Log}

theorem groupName_of_get (h : s.get (groupKey id) = some v) :
    groupName s id = (decodeGroupPayload v).toOption.map Prod.fst := by
  rw [groupName, h]
  rfl

theorem findGroupName_ok_iff {key : Bytes} {ms : List (Bytes × Bytes)} :
    findGroupName key name ms = .ok () ↔
      ∀ m ∈ ms, m.1 ≠ key → ∃ other, (decodeGroupPayload m.2).toOption.map Prod.fst = some other ∧
        other ≠ name := by
  induction ms with
  | nil => simp [findGroupName]
  | cons m ms ih =>
    rw [List.forall_mem_cons, ← ih, findGroupName]
    by_cases hkey : m.1 = key
    · simp [hkey]
    · rw [if_neg hkey]
      rcases decodeGroupPayload m.2 with e | ⟨other, isPublic⟩
      · simp [hkey, Except.toOption]
      · by_cases hname : other = name
        · simp [hkey, hname, Except.toOption]
        · simp [hkey, hname, Except.toOption]

theorem mem_scan_groups (h : NamedApart s) {key : Bytes} :
    (key, v) ∈ s.scanRange groupKeyBounds.1 groupKeyBounds.2 0 ↔
      ∃ id, key = groupKey id ∧ s.get key = some v := by
  have hscan : s.scanRange groupKeyBounds.1 groupKeyBounds.2 0 =
      s.scanPrefix (systemKey kindGroup catalogStatusPlaceholder []) 0 := by
    refine congrArg _ (OrdMap.scan_eq_of_iff fun k v hv => Store.inRange_padded 63 fun id hid => ?_)
    subst hid
    exact Utf8.head_ne_of_valid (h.named id v hv).1
  rw [hscan, Store.mem_scanPrefix]
  constructor
  · rintro ⟨⟨id, rfl⟩, hv⟩
    exact ⟨id, rfl, hv⟩
  · rintro ⟨id, rfl, hv⟩
    exact ⟨⟨id, rfl⟩, hv⟩

theorem checkGroupNameUnique_iff (h : NamedApart s) {value : Bytes} :
    checkGroupNameUnique s (groupKey id) value = .ok () ↔
      ∃ name, (decodeGroupPayload value).toOption.map Prod.fst = some name ∧
        ∀ id', id' ≠ id → groupName s id' ≠ some name := by
  rw [checkGroupNameUnique, if_neg (by simp [systemKind, groupKey, systemKey])]
  rcases decodeGroupPayload value with e | ⟨name, isPublic⟩
  · simp [Except.toOption]
  simp only [findGroupName_ok_iff, Except.toOption, Option.map_some, Option.some.injEq,
    exists_eq_left']
  constructor
  · intro hfound id' hne hname
    obtain ⟨v, hv, -⟩ := Option.bind_eq_some_iff.mp hname
    obtain ⟨other, hother, hdiff⟩ :=
      hfound (groupKey id', v) ((mem_scan_groups h).mpr ⟨id', rfl, hv⟩)
      fun he => hne (systemKey_inj.mp he).2.2
    rw [groupName_of_get hv] at hname
    exact hdiff (Option.some.inj (hother.symm.trans hname))
  · rintro hfree ⟨key, v⟩ hm hne
    obtain ⟨id', rfl, hv⟩ := (mem_scan_groups h).mp hm
    obtain ⟨other, hother⟩ := (h.named id' v hv).2
    refine ⟨other, (groupName_of_get hv).symm.trans hother, ?_⟩
    rintro rfl
    exact hfree id' (fun he => hne (he ▸ rfl)) hother

/-! ## One entry -/

theorem groupKey_set (hl : CatalogEntry l)
    (h : .set (groupKey id) v ∈ plan s l) :
    decodeCommand l.data = .ok ⟨.set, groupKey id, v⟩ ∧
      checkGroupNameUnique s (groupKey id) v = .ok () := by
  unfold plan at h
  rcases hdec : decodeCommand l.data with e | ⟨op, key, value⟩
  · simp [hdec] at h
  simp only [hdec] at h
  cases op with
  | set =>
    obtain ⟨rfl, hname, hspec⟩ := mem_planSet h
    rw [preserveCommandSpec,
      if_pos (by simp [systemKind, groupKey, systemKey, kindGroup, kindCommand])] at hspec
    cases hspec
    exact ⟨rfl, hname⟩
  | del => simp at h
  | confirm =>
    -- what is confirmed has another status byte
    cases mem_planConfirm h
    obtain ⟨kind, peerID, -, hvalue⟩ := hl.confirm _ _ hdec
    exact absurd (systemKey_inj.mp hvalue).2.1 (by decide)
  | cascadeDelete => exact absurd h not_mem_planCascadeDelete
  | consumeInvite => exact absurd h not_mem_planConsumeInvite
  | consumeExecInvite => exact absurd h not_mem_planConsumeExecInvite
  | appendCommandRequest =>
    rcases mem_planAppendCommandRequest h with ⟨hkey, k, hk⟩ | ⟨r, hr⟩
    · obtain ⟨-, -, rest, -, hlog⟩ := Logrecord.parseKey_ok hk
      exact absurd (List.cons.inj (hkey.trans hlog)).1 (by decide)
    · exact absurd (systemKey_inj.mp hr).1 (by decide)
  | txn =>
    obtain ⟨ops, o, hops, ho, hset, hkey⟩ := mem_planTxn h
    exact absurd (congrArg List.head? hkey) (hl.txn key value ops hdec hops o ho hset)
  | unknown b hb => simp at h

theorem get_groupKey_apply (hl : CatalogEntry l)
    (h : (apply s l).2.get (groupKey id) = some v) :
    s.get (groupKey id) = some v ∨
      decodeCommand l.data = .ok ⟨.set, groupKey id, v⟩ ∧
        checkGroupNameUnique s (groupKey id) v = .ok () := by
  rw [apply_store] at h
  by_cases hset : .set (groupKey id) v ∈ plan s l
  · exact .inr (groupKey_set hl hset)
  · exact .inl (Write.get_perform_of_not_set h hset)

theorem NamedApart.eq_of_check (h : NamedApart s) {id' : Bytes}
    (hcheck : checkGroupNameUnique s (groupKey id) v = .ok ())
    (hname : (decodeGroupPayload v).toOption.map Prod.fst = some name)
    (hname' : groupName s id' = some name) :
    id' = id := by
  obtain ⟨checked, hchecked, hfree⟩ := (checkGroupNameUnique_iff h).mp hcheck
  cases hname.symm.trans hchecked
  by_contra hne
  exact hfree id' hne hname'

theorem NamedApart.step (h : NamedApart s) (hl : CatalogEntry l) :
    NamedApart (apply s l).2 := by
  constructor
  · intro id v hv
    rw [groupName_of_get hv]
    rcases get_groupKey_apply hl hv with hold | ⟨hdec, hcheck⟩
    · obtain ⟨hvalid, name, hname⟩ := h.named id v hold
      exact ⟨hvalid, name, (groupName_of_get hold).symm.trans hname⟩
    · obtain ⟨name, hname, -⟩ := (checkGroupNameUnique_iff h).mp hcheck
      exact ⟨hl.group id v hdec, name, hname⟩
  · intro id id' name hname hname'
    obtain ⟨v, hv, -⟩ := Option.bind_eq_some_iff.mp hname
    obtain ⟨v', hv', -⟩ := Option.bind_eq_some_iff.mp hname'
    rw [groupName_of_get hv] at hname
    rw [groupName_of_get hv'] at hname'
    -- an entry puts one group at most, so one of the two was there before
    rcases get_groupKey_apply hl hv with hold | ⟨hdec, hcheck⟩ <;>
      rcases get_groupKey_apply hl hv' with hold' | ⟨hdec', hcheck'⟩
    · exact h.apart id id' name ((groupName_of_get hold).trans hname)
        ((groupName_of_get hold').trans hname')
    · exact h.eq_of_check hcheck' hname' ((groupName_of_get hold).trans hname)
    · exact (h.eq_of_check hcheck hname ((groupName_of_get hold').trans hname')).symm
    · cases hdec.symm.trans hdec'
      rfl

/-! ## Logs -/

theorem namedApart_empty : NamedApart OrdMap.empty where
  named _ _ h := by cases h
  apart _ _ _ h := by cases h

theorem namedApart_applyAll {log : List Log} (hlog : ∀ l ∈ log, CatalogEntry l) :
    NamedApart (applyAll OrdMap.empty log) :=
  List.foldlRecOn log _ namedApart_empty fun _ h l hl => h.step (hlog l hl)

theorem accepted_rename (h : NamedApart s) {value : Bytes}
    (hdec : decodeCommand l.data = .ok ⟨.set, groupKey id, value⟩)
    (hold : s.get (groupKey id) ≠ none)
    (hname : (decodeGroupPayload value).toOption.map Prod.fst = some name)
    (hfree : ∀ id', id' ≠ id → groupName s id' ≠ some name) : (apply s l).1.err = none := by
  have hcap : checkSystemListCap s (groupKey id) = .ok () := checkSystemListCap_iff.mpr (.inl hold)
  have hcheck : checkGroupNameUnique s (groupKey id) value = .ok () :=
    (checkGroupNameUnique_iff h).mpr ⟨name, hname, hfree⟩
  simp only [apply, hdec, applySet, hcap, hcheck]
  rfl

/-- **Group names.** In every state of a log whose groups have UTF-8 identifiers, no two groups have
one name, and a `Set` of a group that is there is accepted if no other group has the
name it carries. -/
theorem groupNames_unique (log : List Log) (hlog : ∀ l ∈ log, CatalogEntry l) (i : Nat) :
    (∀ id id' v v' name isPublic isPublic', id ≠ id' →
      (applyAll OrdMap.empty (log.take i)).get (groupKey id) = some v →
      (applyAll OrdMap.empty (log.take i)).get (groupKey id') = some v' →
      decodeGroupPayload v = .ok (name, isPublic) → decodeGroupPayload v' ≠ .ok (name, isPublic')) ∧
    ∀ l id value old name isPublic, decodeCommand l.data = .ok ⟨.set, groupKey id, value⟩ →
      (applyAll OrdMap.empty (log.take i)).get (groupKey id) = some old →
      decodeGroupPayload value = .ok (name, isPublic) →
      (∀ id' v' isPublic',
        id' ≠ id → (applyAll OrdMap.empty (log.take i)).get (groupKey id') = some v' →
        decodeGroupPayload v' ≠ .ok (name, isPublic')) →
      (apply (applyAll OrdMap.empty (log.take i)) l).1.err = none := by
  have hnamed := namedApart_applyAll fun l hl => hlog l (List.mem_of_mem_take (i := i) hl)
  generalize applyAll OrdMap.empty (log.take i) = s at hnamed
  have hname {id v name : Bytes} {isPublic : Bool} (hv : s.get (groupKey id) = some v)
      (hdec : decodeGroupPayload v = .ok (name, isPublic)) : groupName s id = some name := by
    rw [groupName_of_get hv, hdec]
    rfl
  refine ⟨fun id id' v v' name _ _ hne hv hv' hd hd' => ?_,
    fun l id value old name _ hdec hold hd hfree => ?_⟩
  · exact hne (hnamed.apart id id' name (hname hv hd) (hname hv' hd'))
  · have hvalue : (decodeGroupPayload value).toOption.map Prod.fst = some name := by rw [hd]; rfl
    refine accepted_rename hnamed hdec (by simp [hold]) hvalue fun id' hne hother => ?_
    obtain ⟨v', hv', hsome⟩ := Option.bind_eq_some_iff.mp hother
    rcases hd' : decodeGroupPayload v' with e | ⟨other, isPublic'⟩
    · simp [hd', Except.toOption] at hsome
    · simp only [hd', Except.toOption, Option.map_some, Option.some.injEq] at hsome
      exact hfree id' v' isPublic' hne hv' (hsome ▸ hd')

def putGroup (id name : String) : Log :=
  ⟨encodeCommand .set (groupKey (ascii id)) (encodeGroupPayload (ascii name) false), 0⟩

theorem catalogEntry_putGroup {id name : String} (hvalid : Utf8.valid (ascii id) = true)
    (hdec : decodeCommand (putGroup id name).data =
      .ok ⟨.set, groupKey (ascii id), encodeGroupPayload (ascii name) false⟩) :
    CatalogEntry (putGroup id name) := by
  refine ⟨noSystemTxn_of_op hdec (show OpType.set ≠ .txn by decide), fun key value h => ?_,
    fun id' value h => ?_⟩
  · cases hdec.symm.trans h
  · obtain ⟨-, hkey, -⟩ := Command.mk.inj (Except.ok.inj (hdec.symm.trans h))
    rwa [← (systemKey_inj.mp hkey).2.2]

def twoGroups : List Log := [putGroup "g" "a", putGroup "h" "b"]

/-- Their names differ, and `g` may take a third one. -/
theorem groupNames_unique_two :
    (∀ l ∈ twoGroups, CatalogEntry l) ∧
      decodeGroupPayload (encodeGroupPayload (ascii "b") false) ≠ .ok (ascii "a", false) ∧
      (apply (applyAll OrdMap.empty twoGroups) (putGroup "g" "c")).1.err = none := by
  have hentry : ∀ l ∈ twoGroups, CatalogEntry l := by
    intro l hl
    simp only [twoGroups, List.mem_cons, List.not_mem_nil, or_false] at hl
    obtain rfl | rfl := hl <;> exact catalogEntry_putGroup (by decide) (by decide)
  have hstore : applyAll OrdMap.empty twoGroups =
      Store.set
        (Store.set OrdMap.empty (groupKey (ascii "g")) (encodeGroupPayload (ascii "a") false))
        (groupKey (ascii "h")) (encodeGroupPayload (ascii "b") false) := by decide
  obtain ⟨hapart, hrename⟩ := groupNames_unique _ hentry 2
  refine ⟨hentry, ?_, ?_⟩
  · exact hapart (ascii "g") (ascii "h") (encodeGroupPayload (ascii "a") false)
      (encodeGroupPayload (ascii "b") false) (ascii "a") false false (by decide)
        (by decide) (by decide)
      (by decide)
  · refine hrename (putGroup "g" "c") (ascii "g") (encodeGroupPayload (ascii "c") false)
      (encodeGroupPayload (ascii "a") false) (ascii "c") false (by decide) (by decide) (by decide)
      fun id v isPublic hne hv => ?_
    have hkey : groupKey id ≠ groupKey (ascii "g") := fun h => hne (systemKey_inj.mp h).2.2
    rw [show twoGroups.take 2 = twoGroups from rfl, hstore, Store.set, OrdMap.get_insert, Store.set,
      OrdMap.get_insert, if_neg hkey] at hv
    split_ifs at hv
    · cases hv
      cases isPublic <;> decide
    · cases hv

end KvRaft.Kvfsm
