import KvRaft.Kvctl.Dispatcher

/-! # The queue of a command

`ListCommandRequests` reads every key of the command's kind, and every revision of every unit it
finds. It returns nothing at all as soon as one key does not parse or one revision does not decode,
whoever wrote it. -/

namespace KvRaft.Kvctl

open Bytes Logrecord Shmevent Kvfsm

/-! ## The units of a kind -/

def inKind (kind key : Bytes) : Bool :=
  Store.inRange (kindPrefixBounds kind).1 (kindPrefixBounds kind).2 key

def readUnit (kv : Bytes × Bytes) : Except Err Bytes := (parseKey kv.1).map ParsedKey.unitID

def addNew (ids : List Bytes) (id : Bytes) : List Bytes := if id ∈ ids then ids else ids ++ [id]

theorem addUnitID_eq : addUnitID = fun ids kv => (readUnit kv).map (addNew ids) := by
  funext ids kv
  unfold addUnitID readUnit
  cases parseKey kv.1 <;> rfl

theorem listUnitIDs_eq (s : Store) (kind : Bytes) :
    listUnitIDs s kind = ((s.scan (inKind kind)).mapM readUnit).map (List.foldl addNew []) := by
  have hlo : (kindPrefixBounds kind).1 ≠ [] := by simp [kindPrefixBounds, kindPrefix]
  unfold listUnitIDs
  dsimp only
  rw [scanLoop_eq _ hlo, addUnitID_eq]
  exact List.foldlM_map_eq readUnit addNew _ []

variable {id kind : Bytes}

theorem readUnit_eq_ok {kv : Bytes × Bytes} :
    readUnit kv = .ok id ↔ ∃ k, parseKey kv.1 = .ok k ∧ k.unitID = id := by
  unfold readUnit
  cases parseKey kv.1 <;> simp [Except.map]

theorem mem_foldl_addNew {l ids : List Bytes} :
    id ∈ l.foldl addNew ids ↔ id ∈ ids ∨ id ∈ l := by
  induction l generalizing ids with
  | nil => simp
  | cons x l ih =>
    rw [List.foldl_cons, ih, addNew]
    split_ifs with hx
    · rw [List.mem_cons]
      constructor
      · tauto
      · rintro (h | rfl | h)
        · exact .inl h
        · exact .inl hx
        · exact .inr h
    · rw [List.mem_append, List.mem_singleton, List.mem_cons, or_assoc]

/-- A unit of the kind, with a key under which it is found. -/
structure Listed (s : Store) (kind key : Bytes) (k : ParsedKey) : Prop where
  inKind : inKind kind key = true
  present : ∃ value, s.get key = some value
  parses : parseKey key = .ok k

theorem mem_listUnitIDs {s : Store} {ids : List Bytes}
    (h : listUnitIDs s kind = .ok ids) :
    id ∈ ids ↔ ∃ key k, Listed s kind key k ∧ k.unitID = id := by
  rw [listUnitIDs_eq] at h
  rcases hmap : (s.scan (inKind kind)).mapM readUnit with e | units <;> rw [hmap] at h
  · cases h
  cases h
  have hall := List.mapM_eq_ok.mp hmap
  rw [mem_foldl_addNew]
  constructor
  · rintro (hnil | hid)
    · cases hnil
    · obtain ⟨⟨key, value⟩, hmem, hread⟩ := hall.exists_left hid
      obtain ⟨hkind, hget⟩ := OrdMap.mem_scan.mp hmem
      obtain ⟨k, hk, hunit⟩ := readUnit_eq_ok.mp hread
      exact ⟨key, k, ⟨hkind, ⟨value, hget⟩, hk⟩, hunit⟩
  · rintro ⟨key, k, ⟨hkind, ⟨value, hget⟩, hk⟩, rfl⟩
    obtain ⟨id, hid, hread⟩ := hall.exists_right (OrdMap.mem_scan.mpr ⟨hkind, hget⟩)
    rw [readUnit_eq_ok.mpr ⟨k, hk, rfl⟩] at hread
    cases hread
    exact .inr hid

/-! ## The list -/

theorem scanRevisions_ok_iff {s : Store} {now : Int} {unitID : Bytes} :
    (∃ h, scanRevisions s now kind unitID = .ok h) ↔
      ∀ key value, isRevision now kind unitID key = true → s.get key = some value →
        ∃ rec, decode value = .ok rec := by
  have hall := List.exists_mapM_eq_ok (g := fun e : Bytes × Bytes => decode e.2)
    (l := s.scan (isRevision now kind unitID))
  simp only [Prod.forall, OrdMap.mem_scan, and_imp] at hall
  rw [scanRevisions_eq_mapM, ← hall, Except.exists_map_eq_ok]

/-- Every key of the kind parses, and every revision in view decodes. -/
structure Readable (s : Store) (clock : Bytes → Int) (commandID : Bytes) : Prop where
  parses : ∀ key value, inKind (commandRequestLogKind commandID) key = true →
    s.get key = some value → ∃ k, parseKey key = .ok k
  decodes : ∀ key k, Listed s (commandRequestLogKind commandID) key k → ∀ key' value',
    isRequestKey (clock k.unitID) commandID k.unitID key' = true → s.get key' = some value' →
      ∃ rec, decode value' = .ok rec

section Lists

variable {s : Store} {clock : Bytes → Int} {commandID : Bytes}

theorem listUnitIDs_ok_iff {kind : Bytes} :
    (∃ ids, listUnitIDs s kind = .ok ids) ↔
      ∀ key value, inKind kind key = true → s.get key = some value → ∃ k, parseKey key = .ok k := by
  have hall := List.exists_mapM_eq_ok (g := readUnit) (l := s.scan (inKind kind))
  simp only [Prod.forall, OrdMap.mem_scan, and_imp, readUnit_eq_ok] at hall
  have hparse : (∀ key value, inKind kind key = true → s.get key = some value →
      ∃ id k, parseKey key = .ok k ∧ k.unitID = id) ↔
        ∀ key value, inKind kind key = true → s.get key = some value →
          ∃ k, parseKey key = .ok k := by
    simp only [exists_comm (α := Bytes), exists_and_left, exists_eq', and_true]
  rw [← hparse, ← hall, listUnitIDs_eq, Except.exists_map_eq_ok]

theorem collectRequests_ok_iff {ids : List Bytes} :
    (∃ rs, collectRequests s clock commandID ids = .ok rs) ↔
      ∀ id ∈ ids, ∃ h, scanRevisions s (clock id) (commandRequestLogKind commandID) id = .ok h := by
  rw [collectRequests_eq, Except.exists_map_eq_ok, List.exists_mapM_eq_ok]
  simp only [unitHistory_eq_ok]

theorem listCommandRequests_ok_iff :
    (∃ rs, listCommandRequests s clock commandID = .ok rs) ↔ Readable s clock commandID := by
  unfold listCommandRequests
  rcases hids : listUnitIDs s (commandRequestLogKind commandID) with e | ids
  · constructor
    · rintro ⟨rs, h⟩
      cases h
    · intro h
      obtain ⟨ids, hok⟩ := listUnitIDs_ok_iff.mpr h.parses
      rw [hids] at hok
      cases hok
  · dsimp only
    simp only [collectRequests_ok_iff, mem_listUnitIDs hids, scanRevisions_ok_iff]
    constructor
    · intro h
      refine ⟨listUnitIDs_ok_iff.mp ⟨ids, hids⟩, ?_⟩
      intro key k hlisted
      exact h k.unitID ⟨key, k, hlisted, rfl⟩
    · rintro h id ⟨key, k, hlisted, rfl⟩
      exact h.decodes key k hlisted

/-- The loop of `ListCommandRequests`, each request with the key of the record it is read from. -/
def collectRecords (s : Store) (clock : Bytes → Int) (commandID : Bytes) :
    List Bytes → Except Err (List (Bytes × CommandRequest))
  | [] => .ok []
  | id :: ids =>
    match scanRevisions s (clock id) (commandRequestLogKind commandID) id with
    | .error e => .error (.wrap .listCommandRequests e)
    | .ok h =>
      match collectRecords s clock commandID ids with
      | .error e => .error e
      | .ok listed =>
        .ok (if h.found then
          ((latestKey s (clock id) commandID id).getD [], recordToCommandRequest h) :: listed
        else listed)

def listedRecords (s : Store) (clock : Bytes → Int) (commandID : Bytes) :
    Except Err (List (Bytes × CommandRequest)) :=
  match listUnitIDs s (commandRequestLogKind commandID) with
  | .error e => .error (.wrap .listCommandRequests e)
  | .ok ids => collectRecords s clock commandID ids

theorem map_collectRecords (s : Store) (clock : Bytes → Int) (commandID : Bytes) :
    ∀ ids, (collectRecords s clock commandID ids).map (List.map Prod.snd) =
      collectRequests s clock commandID ids
  | [] => rfl
  | id :: ids => by
    rw [collectRecords, collectRequests, ← map_collectRecords s clock commandID ids]
    cases scanRevisions s (clock id) (commandRequestLogKind commandID) id with
    | error e => rfl
    | ok h =>
      cases collectRecords s clock commandID ids with
      | error e => rfl
      | ok listed => cases hf : h.found <;> simp [Except.map, hf]

theorem map_listedRecords (s : Store) (clock : Bytes → Int) (commandID : Bytes) :
    (listedRecords s clock commandID).map (List.map Prod.snd) =
      listCommandRequests s clock commandID := by
  unfold listedRecords listCommandRequests
  cases listUnitIDs s (commandRequestLogKind commandID) with
  | error e => rfl
  | ok ids => exact map_collectRecords s clock commandID ids

variable {r : CommandRequest}

theorem getCommandRequest_of_scan {id : Bytes} {h : RevisionHistory}
    (hscan : scanRevisions s (clock id) (commandRequestLogKind commandID) id = .ok h) :
    getCommandRequest s (clock id) commandID id = .ok r ↔
      h.found = true ∧ recordToCommandRequest h = r := by
  rw [getCommandRequest, hscan]
  cases hf : h.found <;> simp [hf]

theorem mem_collectRecords {ids : List Bytes} {listed : List (Bytes × CommandRequest)}
    (h : collectRecords s clock commandID ids = .ok listed) {key : Bytes} :
    (key, r) ∈ listed ↔ ∃ id ∈ ids, getCommandRequest s (clock id) commandID id = .ok r ∧
      latestKey s (clock id) commandID id = some key := by
  induction ids generalizing listed with
  | nil =>
    cases h
    simp
  | cons id ids ih =>
    rw [collectRecords] at h
    rcases hscan : scanRevisions s (clock id) (commandRequestLogKind commandID) id with e | hist
    · rw [hscan] at h
      cases h
    rcases hrest : collectRecords s clock commandID ids with e | listed'
    · rw [hscan, hrest] at h
      cases h
    rw [hscan, hrest] at h
    cases h
    -- the unit at hand is listed if it has a revision, and then it has a latest key
    have hhead : getCommandRequest s (clock id) commandID id = .ok r ∧
        latestKey s (clock id) commandID id = some key ↔
          hist.found = true ∧
            (key, r) =
              ((latestKey s (clock id) commandID id).getD [], recordToCommandRequest hist) := by
      constructor
      · rintro ⟨hget, hkey⟩
        obtain ⟨hfound, rfl⟩ := (getCommandRequest_of_scan hscan).mp hget
        exact ⟨hfound, by rw [hkey]; rfl⟩
      · rintro ⟨hfound, heq⟩
        obtain ⟨rfl, rfl⟩ := Prod.mk.inj heq
        have hget := (getCommandRequest_of_scan hscan).mpr ⟨hfound, rfl⟩
        obtain ⟨-, key, -, -, hkey, -⟩ := getCommandRequest_eq_ok.mp hget
        exact ⟨hget, by rw [hkey]; rfl⟩
    rw [List.exists_mem_cons_iff, hhead, ← ih hrest]
    cases hf : hist.found <;> simp

theorem mem_listedRecords_iff {listed : List (Bytes × CommandRequest)}
    (h : listedRecords s clock commandID = .ok listed) {key : Bytes} :
    (key, r) ∈ listed ↔ ∃ key₁ k, Listed s (commandRequestLogKind commandID) key₁ k ∧
      getCommandRequest s (clock k.unitID) commandID k.unitID = .ok r ∧
      latestKey s (clock k.unitID) commandID k.unitID = some key := by
  unfold listedRecords at h
  rcases hids : listUnitIDs s (commandRequestLogKind commandID) with e | ids <;> rw [hids] at h
  · cases h
  rw [mem_collectRecords h]
  simp only [mem_listUnitIDs hids]
  constructor
  · rintro ⟨id, ⟨key₁, k, hlisted, rfl⟩, hget⟩
    exact ⟨key₁, k, hlisted, hget⟩
  · rintro ⟨key₁, k, hlisted, hget⟩
    exact ⟨k.unitID, ⟨key₁, k, hlisted, rfl⟩, hget⟩

end Lists

/-! ## One request -/

/-- The bounds of a kind cut between units, never inside one. -/
theorem inKind_of_unit {unitID key key' : Bytes} (h : kindUnitPrefix kind unitID <+: key)
    (h' : kindUnitPrefix kind unitID <+: key') (hkind : inKind kind key = true) :
    inKind kind key' = true := by
  obtain ⟨x, rfl⟩ := h
  obtain ⟨y, rfl⟩ := h'
  rw [kindUnitPrefix_eq, List.append_assoc] at hkind ⊢
  by_cases hshort : unitID.length < 0xFF00
  · -- the first byte of the unit's length is below the padding
    rw [inKind, kindPrefixBounds, Store.inRange_padded, Store.hasPrefix_iff]
    · exact List.prefix_append ..
    · intro r hr
      rw [← List.append_cancel_left hr, beBytes_two]
      have hbyte : UInt8.ofNat (unitID.length / 256) ≠ 0xFF := by
        intro heq
        have := congrArg UInt8.toNat heq
        simp only [UInt8.toNat_ofNat', UInt8.reduceToNat] at this
        omega
      simpa using hbyte
  · -- the unit is longer than the padding, so its own bytes decide
    have hlong : (List.replicate (2 + maxCatalogIDLen + 8 + 8) (0xFF : UInt8)).length <
        (beBytes 2 unitID.length ++ unitID).length := by
      rw [List.length_replicate, List.length_append, length_beBytes]
      unfold maxCatalogIDLen
      omega
    simp only [inKind, kindPrefixBounds, Store.inRange, Bool.and_eq_true, Bool.not_eq_true',
      decide_eq_false_iff_not, List.append_lt_append_left_iff,
        List.lt_append_iff_of_length_lt hlong] at hkind ⊢
    exact ⟨decide_eq_false (List.not_append_lt_self _ _), hkind.2⟩

/-- A well-formed request for the command that no other record of its instance supersedes. -/
structure IsRequest (s : Store) (commandID instanceID key : Bytes) (rec : Record) : Prop where
  built : ∃ (ts : Int64) (rnd : Bytes), rnd.length = randSize ∧
    buildKey (commandRequestLogKind commandID) instanceID ts.toInt rnd = .ok key
  recorded : ∃ value, s.get key = some value ∧ decode value = .ok rec
  latest : ∀ key' value' k, s.get key' = some value' → parseKey key' = .ok k →
    k.kind = commandRequestLogKind commandID → k.unitID = instanceID → key' ≤ key

/-- A key in the range of both scans: its unit is below the upper bound of the kind, and its time is
not after the clock. -/
def InView (clock : Bytes → Int) (commandID instanceID key : Bytes) : Prop :=
  inKind (commandRequestLogKind commandID) key = true ∧
    isRequestKey (clock instanceID) commandID instanceID key = true

section Requests

variable {s : Store} {clock : Bytes → Int} {commandID instanceID key : Bytes} {rec : Record}

theorem IsRequest.latestKey_eq (h : IsRequest s commandID instanceID key rec)
    (hread : Readable s clock commandID) (hview : InView clock commandID instanceID key) :
    latestKey s (clock instanceID) commandID instanceID = some key := by
  obtain ⟨ts, rnd, -, hkey⟩ := h.built
  obtain ⟨hkind, hunit, -⟩ := buildKey_eq_ok.mp hkey
  obtain ⟨value, hget, -⟩ := h.recorded
  refine latestKey_eq_some.mpr ⟨hview.2, ⟨value, hget⟩, fun key' value' hkey' hget' => ?_⟩
  have hpre := isPrefix_of_isRevision hview.2
  have hpre' := isPrefix_of_isRevision hkey'
  obtain ⟨k, hk⟩ := hread.parses key' value' (inKind_of_unit hpre hpre' hview.1) hget'
  obtain ⟨hkind', hunit', rest, -, heq⟩ := parseKey_ok hk
  obtain ⟨x, hx⟩ := hpre'
  obtain ⟨hk₁, hk₂, -⟩ := kindUnitPrefix_append_inj hkind hkind' hunit hunit' (hx.trans heq)
  exact h.latest key' value' k hget' hk hk₁.symm hk₂.symm

theorem kindPrefix_of_inKind {kind key : Bytes} (h : inKind kind key = true) :
    kindPrefix kind <+: key := by
  simp only [inKind, kindPrefixBounds, Store.inRange, Bool.and_eq_true, Bool.not_eq_true'] at h
  exact List.isPrefix_of_between List.prefix_rfl (List.prefix_append ..) (of_decide_eq_false h.1)
    (of_decide_eq_false h.2)

theorem IsRequest.inView {listed : List (Bytes × CommandRequest)} {r : CommandRequest}
    (h : IsRequest s commandID instanceID key rec)
    (hok : listedRecords s clock commandID = .ok listed) (hmem : (key, r) ∈ listed) :
    InView clock commandID instanceID key := by
  obtain ⟨key₁, k, hlisted, -, hlatest⟩ := (mem_listedRecords_iff hok).mp hmem
  obtain ⟨hkey, -, -⟩ := latestKey_eq_some.mp hlatest
  obtain ⟨ts, rnd, -, hbuilt⟩ := h.built
  obtain ⟨hkind, hunit, heq⟩ := buildKey_eq_ok.mp hbuilt
  obtain ⟨hkind₁, hunit₁, rest, -, heq₁⟩ := parseKey_ok hlisted.parses
  -- the key under which the unit was found is of the kind
  obtain ⟨x, hx⟩ := kindPrefix_of_inKind hlisted.inKind
  have heq₁' := heq₁
  rw [kindUnitPrefix_eq, List.append_assoc] at heq₁'
  obtain ⟨hk, -⟩ := kindPrefix_append_inj hkind hkind₁ (hx.trans heq₁')
  -- and the record's unit is the unit that was found
  obtain ⟨y, hy⟩ := isPrefix_of_isRevision hkey
  obtain ⟨-, rfl, -⟩ := kindUnitPrefix_append_inj hkind hkind hunit₁ hunit (hy.trans heq)
  refine ⟨inKind_of_unit ?_ (isPrefix_of_isRevision hkey) hlisted.inKind, hkey⟩
  rw [heq₁, ← hk]
  exact List.prefix_append ..

/-- A request that nothing supersedes is listed, and so looked at by the dispatcher, exactly if
every key of the kind parses, every record in view decodes, and the request itself is in view. -/
theorem request_listed_iff (h : IsRequest s commandID instanceID key rec) :
    (∃ listed, listedRecords s clock commandID = .ok listed ∧ (key, requestOf rec) ∈ listed ∧
        listCommandRequests s clock commandID = .ok (listed.map Prod.snd) ∧
        considered s clock commandID = listed.map Prod.snd) ↔
      Readable s clock commandID ∧ InView clock commandID instanceID key := by
  constructor
  · rintro ⟨listed, hok, hmem, hlist, -⟩
    exact ⟨listCommandRequests_ok_iff.mp ⟨_, hlist⟩, h.inView hok hmem⟩
  · rintro ⟨hread, hview⟩
    obtain ⟨rs, hlist⟩ := listCommandRequests_ok_iff.mpr hread
    rcases hok : listedRecords s clock commandID with e | listed <;>
      have hmap := map_listedRecords s clock commandID <;> rw [hok, hlist] at hmap
    · cases hmap
    cases hmap
    refine ⟨listed, rfl, ?_, hlist, by rw [considered, hlist]⟩
    obtain ⟨ts, rnd, -, hkey⟩ := h.built
    obtain ⟨value, hget, hdec⟩ := h.recorded
    have hlatest := h.latestKey_eq hread hview
    have hlisted : Listed s (commandRequestLogKind commandID) key
        ⟨commandRequestLogKind commandID, instanceID, ts.toInt⟩ :=
      ⟨hview.1, ⟨value, hget⟩, parseKey_of_buildKey hkey⟩
    refine (mem_listedRecords_iff hok).mpr ⟨key, _, hlisted, ?_, hlatest⟩
    exact getCommandRequest_eq_ok.mpr
      ⟨hread.decodes _ _ hlisted, key, value, rec, hlatest, hget, hdec, rfl⟩

end Requests

def requestEntry (author key body : Bytes) : Log :=
  ⟨encodeCommand .appendCommandRequest key (beBytes 2 author.length ++ (author ++ body)), 0⟩

def goodQueue : Store :=
  applyAll OrdMap.empty (publicLog ++ [requestEntry (ascii "bob") builtRequestKey bobsBody])

def otherKey : Bytes :=
  kindUnitPrefix (commandRequestLogKind (ascii "c")) (ascii "j") ++
    (beBytes 8 2 ++ List.replicate randSize 0)

/-- The store after `eve` recorded something that is not JSON as well. -/
def spoiledQueue : Store :=
  applyAll OrdMap.empty (publicLog ++ [requestEntry (ascii "bob") builtRequestKey bobsBody,
    requestEntry (ascii "eve") otherKey (ascii "x")])

def bobsRecord : Record :=
  ⟨[], ascii "i", .zero, ascii "bob", OrdMap.empty.insert (ascii "command_id") (ascii "c"), []⟩

theorem isRequest_bob {s : Store} (hget : s.get builtRequestKey = some bobsBody)
    (hlatest :
      ∀ e ∈ s.entries, kindUnitPrefix (commandRequestLogKind (ascii "c")) (ascii "i") <+: e.1 →
      e.1 ≤ builtRequestKey) :
    IsRequest s (ascii "c") (ascii "i") builtRequestKey bobsRecord where
  built := ⟨1, List.replicate randSize 0, length_zeros, by decide⟩
  recorded := ⟨bobsBody, hget, by decide +kernel⟩
  latest := by
    intro key' value' k hget' hk hkind hunit
    obtain ⟨-, -, rest, -, heq⟩ := parseKey_ok hk
    rw [hkind, hunit] at heq
    exact hlatest (key', value') (OrdMap.get_eq_some.mp hget') ⟨rest, heq.symm⟩

theorem request_listed_bob :
    listedRecords goodQueue (fun _ => 5) (ascii "c") = .ok [(builtRequestKey, bobsRequest)] ∧
      InView (fun _ => 5) (ascii "c") (ascii "i") builtRequestKey ∧
      Readable goodQueue (fun _ => 5) (ascii "c") := by
  have hok : listedRecords goodQueue (fun _ => 5) (ascii "c") =
      .ok [(builtRequestKey, bobsRequest)] := by decide +kernel
  have hlist := map_listedRecords goodQueue (fun _ => 5) (ascii "c")
  rw [hok] at hlist
  have hreq : IsRequest goodQueue (ascii "c") (ascii "i") builtRequestKey bobsRecord :=
    isRequest_bob (by decide +kernel) (by decide +kernel)
  obtain ⟨hread, hview⟩ := (request_listed_iff hreq).mp
    ⟨_, hok, List.mem_singleton_self _, hlist.symm, by rw [considered, ← hlist]; rfl⟩
  exact ⟨hok, hview, hread⟩

/-- `eve` may record requests for the public command `c`. What they record is not JSON, and the
request of `bob` is not listed any more. -/
theorem queue_blocked :
    IsRequest spoiledQueue (ascii "c") (ascii "i") builtRequestKey bobsRecord ∧
      InView (fun _ => 5) (ascii "c") (ascii "i") builtRequestKey ∧
      spoiledQueue.get otherKey = some (ascii "x") ∧
      listCommandRequests spoiledQueue (fun _ => 5) (ascii "c") =
        .error (.wrap .listCommandRequests .jsonSyntax) ∧
      considered spoiledQueue (fun _ => 5) (ascii "c") = [] :=
  ⟨isRequest_bob (by decide +kernel) (by decide +kernel), ⟨by decide +kernel, by decide +kernel⟩,
    by decide +kernel, by decide +kernel, by decide +kernel⟩

end KvRaft.Kvctl
