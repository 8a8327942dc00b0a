import KvRaft.Kvfsm.Plan

/-! # Cascading deletes

`OpCascadeDelete` on a command or a group removes the record together with the relations it stands
in. The relations of a command are found by their common beginning, those of a group by parsing
every relation there is. Both are exact: the first identifier of a relation key comes with its
length, so identifiers that begin alike, or that are equal once joined, have no
relation in common. -/

namespace KvRaft.Kvfsm

open Bytes Shmevent

/-- The keys a cascade over the command `c` is to remove. -/
def CommandCascade (c key : Bytes) : Prop := key = commandKey c ∨ ∃ g, groupCommandKey c g = .ok key

/-- The keys a cascade over the group `g` is to remove. -/
def GroupCascade (g key : Bytes) : Prop :=
  key = groupKey g ∨ (∃ c, groupCommandKey c g = .ok key) ∨ ∃ p, peerGroupKey p g = .ok key

/-- The relation keys of the store were built by `GroupCommandKey` and `PeerGroupKey`. -/
structure BuiltRelations (s : Store) : Prop where
  groupCommands : ∀ k v, s.get k = some v → systemKind k = some kindGroupCommand →
    ∃ c g, groupCommandKey c g = .ok k
  peerGroups : ∀ k v, s.get k = some v → systemKind k = some kindPeerGroup →
    ∃ p g, peerGroupKey p g = .ok k

/-! ## The keys of a cascade -/

theorem matchingKeys_ok {parse : Bytes → Except Err (Bytes × Bytes)} {ms : List (Bytes × Bytes)}
    (h : ∀ m ∈ ms, ∃ r, parse m.1 = .ok r) (groupID : Bytes) :
    ∃ ks, matchingKeys parse groupID ms = .ok ks := by
  induction ms with
  | nil => exact ⟨[], rfl⟩
  | cons m ms ih =>
    obtain ⟨⟨⟨i, g⟩, hp⟩, hms⟩ := List.forall_mem_cons.mp h
    obtain ⟨ks, hks⟩ := ih hms
    rw [matchingKeys, hp]
    simp only [hks]
    exact ⟨_, rfl⟩

variable {k key value : Bytes} {s : Store} {kind : UInt8} {ks : List Bytes} {l : Log}

theorem mem_map_fst_scanPrefix {p : Bytes} :
    k ∈ (s.scanPrefix p 0).map Prod.fst ↔ p <+: k ∧ s.get k ≠ none := by
  rw [Option.ne_none_iff_exists']
  constructor
  · intro h
    obtain ⟨⟨k', v⟩, hmem, rfl⟩ := List.mem_map.mp h
    obtain ⟨hp, hget⟩ := Store.mem_scanPrefix.mp hmem
    exact ⟨hp, v, hget⟩
  · rintro ⟨hp, v, hget⟩
    exact List.mem_map.mpr ⟨(k, v), Store.mem_scanPrefix.mpr ⟨hp, hget⟩, rfl⟩

theorem mem_matching_relations {g : Bytes}
    (h : matchingKeys (parseRelationKey kind) g
      (s.scanPrefix (systemKey kind catalogStatusPlaceholder []) 0) = .ok ks) :
    k ∈ ks ↔ s.get k ≠ none ∧ ∃ id, relationKey kind id g = .ok k := by
  rw [mem_matchingKeys h]
  constructor
  · rintro ⟨id, hmem, hparse⟩
    obtain ⟨hlist, hget⟩ := mem_map_fst_scanPrefix.mp hmem
    exact ⟨hget, id, relationKey_of_parse hlist hparse⟩
  · rintro ⟨hget, id, hkey⟩
    exact ⟨id, mem_map_fst_scanPrefix.mpr ⟨relationKey_mem_list hkey, hget⟩,
      parseRelationKey_relationKey hkey⟩

theorem cascadeKeys_commandKey (s : Store) (c : Bytes) :
    cascadeKeys s (commandKey c) =
      (groupCommandKey c []).map fun p => (s.scanPrefix p 0).map Prod.fst ++ [commandKey c] := by
  change (groupCommandKey c [] >>= fun p => pure _) = _
  cases groupCommandKey c [] <;> rfl

theorem cascadeKeys_command_isOk {c : Bytes} :
    (∃ ks, cascadeKeys s (commandKey c) = .ok ks) ↔ c.length ≤ 0xFFFF := by
  rw [cascadeKeys_commandKey]
  constructor
  · rintro ⟨ks, hks⟩
    rcases hp : groupCommandKey c [] with e | p <;> rw [hp] at hks
    · cases hks
    · exact (relationKey_eq_ok hp).1
  · intro hlen
    rw [groupCommandKey, relationKey_of_le hlen]
    exact ⟨_, rfl⟩

theorem cascadeKeys_command {c : Bytes}
    (h : cascadeKeys s (commandKey c) = .ok ks) :
    k ∈ ks ↔ k = commandKey c ∨ s.get k ≠ none ∧ ∃ g, groupCommandKey c g = .ok k := by
  rw [cascadeKeys_commandKey] at h
  rcases hp : groupCommandKey c [] with e | p <;> rw [hp] at h
  · cases h
  cases h
  rw [List.mem_append, List.mem_singleton, mem_map_fst_scanPrefix,
    relationKey_nil_isPrefix hp, or_comm, and_comm]
  rfl

theorem cascadeKeys_groupKey (s : Store) (g : Bytes) :
    cascadeKeys s (groupKey g) =
      (matchingKeys parseGroupCommandKey g (s.scanPrefix allGroupCommandsPrefix 0) >>= fun cs =>
        matchingKeys parsePeerGroupKey g (s.scanPrefix allPeerGroupsPrefix 0) >>= fun ps =>
          pure (cs ++ (ps ++ [groupKey g]))) := rfl

theorem cascadeKeys_group {g : Bytes}
    (h : cascadeKeys s (groupKey g) = .ok ks) :
    k ∈ ks ↔ k = groupKey g ∨
      s.get k ≠ none ∧ ((∃ c, groupCommandKey c g = .ok k) ∨ ∃ p, peerGroupKey p g = .ok k) := by
  rw [cascadeKeys_groupKey] at h
  rcases hcs : matchingKeys parseGroupCommandKey g (s.scanPrefix allGroupCommandsPrefix 0) with
    e | cs <;>
    rw [hcs] at h
  · cases h
  rcases hps : matchingKeys parsePeerGroupKey g (s.scanPrefix allPeerGroupsPrefix 0) with e | ps <;>
    rw [hps] at h
  · cases h
  cases h
  rw [List.mem_append, List.mem_append, List.mem_singleton, mem_matching_relations hcs,
    mem_matching_relations hps, and_or_left]
  unfold groupCommandKey peerGroupKey
  tauto

/-! ## The entry -/

theorem accepted_of_cascadeKeys
    (h : decodeCommand l.data = .ok ⟨.cascadeDelete, key, value⟩)
    (hks : cascadeKeys s key = .ok ks) :
    (apply s l).1.err = none := by
  simp only [apply, h, committed, Store.withTx, applyCascadeDelete_eq, hks, Except.map]

theorem refused_of_cascadeKeys {e : Err}
    (h : decodeCommand l.data = .ok ⟨.cascadeDelete, key, value⟩)
    (hks : cascadeKeys s key = .error e) :
    apply s l = fail s e := by
  simp only [apply, h, committed, Store.withTx, applyCascadeDelete_eq, hks, Except.map]
  rfl

theorem get_cascade
    (h : decodeCommand l.data = .ok ⟨.cascadeDelete, key, value⟩) (hok : (apply s l).1.err = none) :
    ∃ ks, cascadeKeys s key = .ok ks ∧
      ∀ k, (apply s l).2.get k = if k ∈ ks then none else s.get k := by
  rcases hks : cascadeKeys s key with e | ks
  · rw [refused_of_cascadeKeys h hks] at hok
    cases hok
  · have happly : apply s l = committed s fun tx => applyCascadeDelete tx key := by
      simp only [apply, h]
    refine ⟨ks, rfl, fun k => ?_⟩
    rw [happly, cascadeDelete_store, planCascadeDelete, hks]
    exact Write.get_perform_del s ks k

theorem get_cascade_iff {s' : Store} {P : Prop}
    (hget : s'.get k = if k ∈ ks then none else s.get k) (hmem : k ∈ ks → P)
    (hstored : P → s.get k ≠ none → k ∈ ks) :
    (P → s'.get k = none) ∧ (¬P → s'.get k = s.get k) := by
  rw [hget]
  constructor
  · intro hP
    split_ifs with hk
    · rfl
    · by_contra hne
      exact hk (hstored hP hne)
  · intro hP
    rw [if_neg fun hk => hP (hmem hk)]

theorem systemKind_of_list
    (h : systemKey kind catalogStatusPlaceholder [] <+: k) : systemKind k = some kind := by
  obtain ⟨r, rfl⟩ := h
  rfl

theorem parses_of_built
    (h : ∀ k v, s.get k = some v → systemKind k = some kind →
      ∃ id g, relationKey kind id g = .ok k) :
    ∀ m ∈ s.scanPrefix (systemKey kind catalogStatusPlaceholder []) 0,
      ∃ r, parseRelationKey kind m.1 = .ok r := by
  rintro ⟨k, v⟩ hm
  obtain ⟨hlist, hget⟩ := Store.mem_scanPrefix.mp hm
  obtain ⟨id, g, hkey⟩ := h k v hget (systemKind_of_list hlist)
  exact ⟨_, parseRelationKey_relationKey hkey⟩

theorem cascadeKeys_group_isOk (hbuilt : BuiltRelations s) (g : Bytes) :
    ∃ ks, cascadeKeys s (groupKey g) = .ok ks := by
  obtain ⟨cs, hcs⟩ := matchingKeys_ok (parses_of_built hbuilt.groupCommands) g
  obtain ⟨ps, hps⟩ := matchingKeys_ok (parses_of_built hbuilt.peerGroups) g
  have hcs' :
      matchingKeys parseGroupCommandKey g (s.scanPrefix allGroupCommandsPrefix 0) = .ok cs := hcs
  have hps' : matchingKeys parsePeerGroupKey g (s.scanPrefix allPeerGroupsPrefix 0) = .ok ps := hps
  rw [cascadeKeys_groupKey, hcs', hps']
  exact ⟨_, rfl⟩

/-- **A cascade removes the record and its relations, and nothing else.** Of a command, a successful
one removes its record and all its links to groups; of a group, its record, its links to commands
and its members. Every other key keeps its value. In a store whose relation keys were built by the
two builders, both succeed, for a command whose identifier a relation can hold. -/
theorem cascade_exact :
    (∀ (s : Store) (l : Log) (c value : Bytes),
      decodeCommand l.data = .ok ⟨.cascadeDelete, commandKey c, value⟩ → (apply s l).1.err = none →
      ∀ k, (CommandCascade c k → (apply s l).2.get k = none) ∧
        (¬CommandCascade c k → (apply s l).2.get k = s.get k)) ∧
    (∀ (s : Store) (l : Log) (g value : Bytes),
      decodeCommand l.data = .ok ⟨.cascadeDelete, groupKey g, value⟩ → (apply s l).1.err = none →
      ∀ k, (GroupCascade g k → (apply s l).2.get k = none) ∧
        (¬GroupCascade g k → (apply s l).2.get k = s.get k)) ∧
    (∀ (s : Store) (l : Log) (c value : Bytes), c.length ≤ 0xFFFF →
      decodeCommand l.data = .ok ⟨.cascadeDelete, commandKey c, value⟩ →
      (apply s l).1.err = none) ∧
    ∀ (s : Store) (l : Log) (g value : Bytes), BuiltRelations s →
      decodeCommand l.data = .ok ⟨.cascadeDelete, groupKey g, value⟩ →
        (apply s l).1.err = none := by
  refine ⟨fun s l c value hdec hok k => ?_, fun s l g value hdec hok k => ?_,
    fun s l c value hlen hdec => ?_, fun s l g value hbuilt hdec => ?_⟩
  · obtain ⟨ks, hks, hget⟩ := get_cascade hdec hok
    have hmem := cascadeKeys_command hks (k := k)
    refine get_cascade_iff (hget k) (fun hk => ?_) fun hP hne => ?_
    · exact (hmem.mp hk).imp_right And.right
    · exact hmem.mpr (hP.imp_right fun h => ⟨hne, h⟩)
  · obtain ⟨ks, hks, hget⟩ := get_cascade hdec hok
    have hmem := cascadeKeys_group hks (k := k)
    refine get_cascade_iff (hget k) (fun hk => ?_) fun hP hne => ?_
    · exact (hmem.mp hk).imp_right And.right
    · exact hmem.mpr (hP.imp_right fun h => ⟨hne, h⟩)
  · obtain ⟨ks, hks⟩ := cascadeKeys_command_isOk.mpr hlen
    exact accepted_of_cascadeKeys hdec hks
  · obtain ⟨ks, hks⟩ := cascadeKeys_group_isOk hbuilt g
    exact accepted_of_cascadeKeys hdec hks

/-- A command whose identifier begins another one's, both linked to a group. -/
def linkedCommands : Store :=
  ((OrdMap.empty.insert (commandKey (ascii "c")) [0, 0]).insert
    (systemKey kindGroupCommand catalogStatusPlaceholder ([0, 1] ++ ascii "cg")) []).insert
    (systemKey kindGroupCommand catalogStatusPlaceholder ([0, 2] ++ ascii "cgg")) []

/-- The cascade over `c` removes its link to `g` and leaves the link of `cg` to `g`. -/
theorem cascade_exact_linked :
    (apply linkedCommands ⟨encodeCommand .cascadeDelete (commandKey (ascii "c")) [], 0⟩).2.get
        (systemKey kindGroupCommand catalogStatusPlaceholder ([0, 1] ++ ascii "cg")) = none ∧
      (apply linkedCommands ⟨encodeCommand .cascadeDelete (commandKey (ascii "c")) [], 0⟩).2.get
        (systemKey kindGroupCommand catalogStatusPlaceholder ([0, 2] ++ ascii "cgg")) =
          some [] := by
  have hexact := cascade_exact.1 linkedCommands
    ⟨encodeCommand .cascadeDelete (commandKey (ascii "c")) [],
      0⟩ (ascii "c") [] (by decide) (by decide)
  refine ⟨(hexact _).1 (.inr ⟨ascii "g", by decide⟩), ?_⟩
  refine ((hexact _).2 ?_).trans (by decide)
  rintro (h | ⟨g, hg⟩)
  · exact absurd h (by decide)
  · have hlink : groupCommandKey (ascii "cg") (ascii "g") = .ok
        (systemKey kindGroupCommand catalogStatusPlaceholder ([0, 2] ++ ascii "cgg")) := by decide
    exact absurd (relationKey_inj hg hlink).1 (by decide)

end KvRaft.Kvfsm
