import KvRaft.Lib.Traverse
import KvRaft.Logrecord.Record
import KvRaft.Store

/-! # Scans from a client (`pkg/kvctl/catalog.go`, `pkg/shmclient/kv.go`)

A client reads a range of keys one entry at a time, each call starting right after the key that the
last one returned. `scanRevisions` and `listUnitIDs` are two such loops. The entries of the node do
not change while a loop runs. -/

namespace KvRaft.Kvctl

open Bytes Logrecord

/-- `Session.ListRange`: the first entry of the range. An empty key says that there is none. -/
def listRange (s : Store) (start stop : Bytes) : Option (Bytes × Bytes) :=
  match s.scanRange start stop 1 with
  | [] => none
  | (key, value) :: _ => if key = [] then none else some (key, value)

/-- The loop of `scanRevisions` and `listUnitIDs`: `lo` moves past each key that was returned. -/
def scanLoop {β : Type} (s : Store) (hi : Bytes) (f : β → Bytes × Bytes → Except Err β)
    (lo : Bytes) (b : β) :
    Except Err β :=
  OrdMap.pages (fun lo => listRange s lo hi) (fun key => key ++ [0x00]) (Except.stepUntil f)
    (s.entries.length + 1) lo (.ok b)

structure RevisionHistory where
  latest : Record
  createdAt : Time
  createdBy : Bytes
  found : Bool

def RevisionHistory.zero : RevisionHistory := ⟨.zero, .zero, [], false⟩

def addRevision (h : RevisionHistory) (kv : Bytes × Bytes) : Except Err RevisionHistory :=
  match decode kv.2 with
  | .error e => .error e
  | .ok rec =>
    .ok ⟨rec, if h.found then h.createdAt else rec.timestamp,
      if h.found then h.createdBy else rec.authorPeerID, true⟩

/-- `now` is the client's clock, in Unix nanoseconds. -/
def scanRevisions (s : Store) (now : Int) (kind unitID : Bytes) : Except Err RevisionHistory :=
  let (lo, hi) := scanBounds kind unitID 0 now
  scanLoop s hi addRevision lo .zero

def maxCatalogIDLen : Nat := 256

def kindPrefixBounds (kind : Bytes) : Bytes × Bytes :=
  (kindPrefix kind, kindPrefix kind ++ List.replicate (2 + maxCatalogIDLen + 8 + 8) 0xFF)

/-- Each unit once, in the order of the keys. -/
def addUnitID (ids : List Bytes) (kv : Bytes × Bytes) : Except Err (List Bytes) :=
  match parseKey kv.1 with
  | .error e => .error e
  | .ok k => .ok (if k.unitID ∈ ids then ids else ids ++ [k.unitID])

def listUnitIDs (s : Store) (kind : Bytes) : Except Err (List Bytes) :=
  let (lo, hi) := kindPrefixBounds kind
  scanLoop s hi addUnitID lo []

/-! ## The loop as a fold -/

theorem listRange_eq_head? {s : Store} {lo : Bytes} (hlo : lo ≠ [] ∨ s.get [] = none) (hi : Bytes) :
    listRange s lo hi = (s.scan (Store.inRange lo hi)).head? := by
  rw [listRange, Store.scanRange, Store.limited, if_neg Nat.one_ne_zero]
  rcases hscan : s.scan (Store.inRange lo hi) with _ | ⟨⟨key, value⟩, rest⟩
  · rfl
  obtain ⟨hrange, hget⟩ := OrdMap.mem_scan.mp (hscan ▸ List.mem_cons_self ..)
  have hkey : key ≠ [] := by
    rintro rfl
    rcases hlo with hlo | hnone
    · obtain ⟨x, lo', rfl⟩ := List.exists_cons_of_ne_nil hlo
      simp only [Store.inRange, Bool.and_eq_true, Bool.not_eq_true',
        decide_eq_false_iff_not] at hrange
      exact hrange.1 (List.nil_lt_cons ..)
    · rw [hnone] at hget
      cases hget
  simp only [List.take_succ_cons, List.head?_cons, if_neg hkey]

theorem scanLoop_eq {β : Type} {s : Store} {hi lo : Bytes}
    {f : β → Bytes × Bytes → Except Err β} (b : β)
    (hlo : lo ≠ []) : scanLoop s hi f lo b = (s.scan (Store.inRange lo hi)).foldlM f b := by
  rw [scanLoop,
    Store.pages_range (· ≠ []) (by simp) (fun lo hlo => listRange_eq_head? (.inl hlo) hi) _ hlo,
    List.foldUntil_except]

/-! ## Revisions -/

/-- The keys that `scanRevisions` reads. -/
def isRevision (now : Int) (kind unitID key : Bytes) : Bool :=
  Store.inRange (scanBounds kind unitID 0 now).1 (scanBounds kind unitID 0 now).2 key

theorem isRevision_mono {now now' : Int} (h : now ≤ now') (hlt : now' < 2 ^ 63)
    {kind unitID key : Bytes} (hkey : isRevision now kind unitID key = true) :
    isRevision now' kind unitID key = true := by
  simp only [isRevision, Store.inRange, Bool.and_eq_true, Bool.not_eq_true',
    decide_eq_false_iff_not, not_lt] at hkey ⊢
  exact ⟨hkey.1, hkey.2.trans (scanBounds_mono kind unitID 0 h hlt)⟩

theorem scanRevisions_eq (s : Store) (now : Int) (kind unitID : Bytes) :
    scanRevisions s now kind unitID =
      (s.scan (isRevision now kind unitID)).foldlM addRevision .zero := by
  exact scanLoop_eq _ (by simp [kindUnitPrefix])

def RevisionHistory.next (h : RevisionHistory) (rec : Record) : RevisionHistory :=
  ⟨rec, if h.found then h.createdAt else rec.timestamp,
    if h.found then h.createdBy else rec.authorPeerID, true⟩

theorem addRevision_eq (h : RevisionHistory) (kv : Bytes × Bytes) :
    addRevision h kv = (decode kv.2).map h.next := by
  unfold addRevision
  cases decode kv.2 <;> rfl

theorem scanRevisions_eq_mapM (s : Store) (now : Int) (kind unitID : Bytes) :
    scanRevisions s now kind unitID =
      ((s.scan (isRevision now kind unitID)).mapM fun e => decode e.2).map
        (List.foldl RevisionHistory.next .zero) := by
  rw [scanRevisions_eq, ← List.foldlM_map_eq]
  simp only [← addRevision_eq]

theorem foldl_next (recs : List Record) (h : RevisionHistory) :
    match recs.getLast? with
    | none => recs.foldl RevisionHistory.next h = h
    | some rec => (recs.foldl RevisionHistory.next h).found = true ∧
        (recs.foldl RevisionHistory.next h).latest = rec := by
  induction recs using List.reverseRecOn with
  | nil => rfl
  | append_singleton recs rec _ =>
    rw [List.getLast?_concat, List.foldl_concat]
    exact ⟨rfl, rfl⟩

theorem scanRevisions_found {s : Store} {now : Int} {kind unitID : Bytes} {rec : Record} :
    (∃ h, scanRevisions s now kind unitID = .ok h ∧ h.found = true ∧ h.latest = rec) ↔
      (∀ key value, isRevision now kind unitID key = true → s.get key = some value →
        ∃ rec, decode value = .ok rec) ∧
      ∃ key value, (s.scan (isRevision now kind unitID)).getLast? = some (key, value) ∧
        decode value = .ok rec := by
  have hall : (∀ key value, isRevision now kind unitID key = true → s.get key = some value →
      ∃ rec, decode value = .ok rec) ↔
        ∃ recs, (s.scan (isRevision now kind unitID)).mapM (fun e => decode e.2) = .ok recs := by
    simp only [List.exists_mapM_eq_ok, Prod.forall, OrdMap.mem_scan, and_imp]
  rw [scanRevisions_eq_mapM, hall]
  rcases hrecs : (s.scan (isRevision now kind unitID)).mapM fun e => decode e.2 with e | recs <;>
    rw [hrecs]
  · simp [Except.map]
  -- the last revision read is the decoded last entry of the range
  have hrel := (List.mapM_eq_ok.mp hrecs).getLast?
  have hnext := foldl_next recs .zero
  generalize (s.scan (isRevision now kind unitID)).getLast? = entry at hrel ⊢
  generalize recs.getLast? = last at hrel hnext
  constructor
  · rintro ⟨h, heq, hfound, rfl⟩
    cases heq
    refine ⟨⟨recs, rfl⟩, ?_⟩
    cases hrel with
    | none =>
      rw [hnext] at hfound
      cases hfound
    | @some e rec hdec => exact ⟨e.1, e.2, rfl, hnext.2 ▸ hdec⟩
  · rintro ⟨-, key, value, rfl, hdec⟩
    cases hrel with
    | @some _ rec' hdec' =>
      cases hdec.symm.trans hdec'
      exact ⟨_, rfl, hnext.1, hnext.2⟩

end KvRaft.Kvctl
