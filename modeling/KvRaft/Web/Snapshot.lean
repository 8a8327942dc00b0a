import KvRaft.Web.Entries

/-! # Snapshots on both platforms (`pkg/store`: `DumpAll`, `LoadAll`; `web-app/src/fsm.rs`)

A snapshot is a row after the other, each a key and a value under lengths of four bytes. Go inserts
the rows as they come off the stream, in one transaction; the browser takes the whole snapshot apart
before it inserts any. Neither leaves a choice
to the bytes. -/

namespace KvRaft

open Bytes

namespace Store

/-- `LoadAll` on a store with entries of its own: they are deleted in the transaction
of the inserts. -/
def loadInto (s : Store) (b : Bytes) : Option Err × Store := s.withTx fun _ => loadAll b

/-- Four bytes hold the lengths. -/
def RowsFit (rows : List (Bytes × Bytes)) : Prop :=
  ∀ kv ∈ rows, kv.1.length < 2 ^ 32 ∧ kv.2.length < 2 ^ 32

/-- The bytes end within a row. -/
def BreaksOff (b : Bytes) : Prop :=
  ∃ rows kv rest, b = dumpRows rows ++ rest ∧ RowsFit (kv :: rows) ∧ rest ≠ [] ∧
    rest <+: dumpRows [kv] ∧ rest ≠ dumpRows [kv]

/-- Of the rows the bytes begin with, two have the same key. -/
def Repeats (b : Bytes) : Prop :=
  ∃ rows rest, b = dumpRows rows ++ rest ∧ RowsFit rows ∧ ¬(rows.map Prod.fst).Nodup

/-! ## One row after the other -/

section Rows

variable {rows rows' : List (Bytes × Bytes)}

theorem dumpRows_ne_nil (kv : Bytes × Bytes) (rows : List (Bytes × Bytes)) :
    dumpRows (kv :: rows) ≠ [] :=
  List.ne_nil_of_length_pos (by simp [dumpRows_cons])

theorem readField_row {kv : Bytes × Bytes} (hfit : kv.1.length < 2 ^ 32 ∧ kv.2.length < 2 ^ 32)
    (rest : Bytes) :
    ∃ b, readField (dumpRows (kv :: rows) ++ rest) = .ok (kv.1, b) ∧
      readField b = .ok (kv.2, dumpRows rows ++ rest) := by
  refine ⟨beBytes 4 kv.2.length ++ (kv.2 ++ (dumpRows rows ++ rest)), ?_, readField_append hfit.2 _⟩
  rw [dumpRows_cons]
  simp only [List.append_assoc]
  exact readField_append hfit.1 _

theorem dumpRows_append_inj {rest : Bytes} (hfit : RowsFit rows) (hfit' : RowsFit rows')
    (h : dumpRows rows ++ rest = dumpRows rows') :
    ∃ tail, rows' = rows ++ tail ∧ rest = dumpRows tail := by
  induction rows generalizing rows' with
  | nil => exact ⟨rows', rfl, h⟩
  | cons kv rows ih =>
    obtain ⟨hkv, hfit⟩ := List.forall_mem_cons.mp hfit
    cases rows' with
    | nil => exact absurd (List.append_eq_nil_iff.mp h).1 (dumpRows_ne_nil kv rows)
    | cons kv' rows' =>
      obtain ⟨hkv', hfit'⟩ := List.forall_mem_cons.mp hfit'
      obtain ⟨b, hkey, hvalue⟩ := @readField_row rows kv hkv rest
      obtain ⟨b', hkey', hvalue'⟩ := @readField_row rows' kv' hkv' []
      rw [h] at hkey
      rw [List.append_nil] at hkey' hvalue'
      obtain ⟨hk, rfl⟩ := Prod.mk.inj (Except.ok.inj (hkey.symm.trans hkey'))
      obtain ⟨hv, hrest⟩ := Prod.mk.inj (Except.ok.inj (hvalue.symm.trans hvalue'))
      obtain ⟨tail, rfl, rfl⟩ := ih hfit hfit' hrest
      exact ⟨tail, by rw [Prod.ext hk hv, List.cons_append], rfl⟩

theorem readField_eq_ok {b x rest : Bytes} (h : readField b = .ok (x, rest)) :
    x.length < 2 ^ 32 ∧ b = beBytes 4 x.length ++ (x ++ rest) := by
  unfold readField at h
  rcases hn : readNat 4 b with _ | ⟨n, b'⟩ <;> simp only [hn] at h
  · cases h
  rcases hx : readBytes n b' with _ | r <;> simp only [hx] at h
  · cases h
  cases h
  obtain ⟨hlt, rfl⟩ := readNat_eq_some hn
  obtain ⟨rfl, rfl⟩ := readBytes_eq_some hx
  exact ⟨by omega, rfl⟩

end Rows

/-! ## Loading -/

variable {b : Bytes} {s t : Store}

theorem loadRows_eq_ok {fuel : Nat} (h : loadRows fuel b s = .ok t) :
    ∃ rows, b = dumpRows rows ∧ RowsFit rows ∧ (rows.map Prod.fst).Nodup ∧
      (∀ kv ∈ rows, s.get kv.1 = none) ∧ t = rows.foldl (fun t kv => t.set kv.1 kv.2) s := by
  induction fuel generalizing b s with
  | zero => cases h
  | succ fuel ih =>
    rw [loadRows] at h
    split_ifs at h with hempty
    · cases h
      exact ⟨[], hempty, by simp [RowsFit], List.nodup_nil, by simp, rfl⟩
    rcases hkey : readField b with e | ⟨key, b'⟩ <;> simp only [hkey] at h
    · cases h
    rcases hvalue : readField b' with e | ⟨value, b''⟩ <;> simp only [hvalue] at h
    · cases h
    split_ifs at h with hdup
    obtain ⟨rows, rfl, hfit, hnodup, hfree, rfl⟩ := ih h
    obtain ⟨hk, rfl⟩ := readField_eq_ok hkey
    obtain ⟨hv, rfl⟩ := readField_eq_ok hvalue
    have hnew : ∀ kv ∈ rows, kv.1 ≠ key ∧ s.get kv.1 = none := by
      intro kv hkv
      have hnone := hfree kv hkv
      rw [set, OrdMap.get_insert] at hnone
      split_ifs at hnone with hne
      exact ⟨hne, hnone⟩
    refine ⟨(key, value) :: rows, (dumpRows_cons (key, value) rows).symm,
      List.forall_mem_cons.mpr ⟨⟨hk, hv⟩, hfit⟩, ?_, ?_, rfl⟩
    · refine List.nodup_cons.mpr ⟨fun hmem => ?_, hnodup⟩
      obtain ⟨kv, hkv, heq⟩ := List.mem_map.mp hmem
      exact (hnew kv hkv).1 heq
    · exact List.forall_mem_cons.mpr ⟨Option.not_isSome_iff_eq_none.mp hdup,
        fun kv hkv => (hnew kv hkv).2⟩

theorem loadAll_eq_ok (h : loadAll b = .ok t) :
    ∃ rows, b = dumpRows rows ∧ RowsFit rows ∧ (rows.map Prod.fst).Nodup ∧ rows.Perm t.entries := by
  obtain ⟨rows, rfl, hfit, hnodup, hfree, rfl⟩ := loadRows_eq_ok h
  refine ⟨rows, rfl, hfit, hnodup, ?_⟩
  have hentries : (rows.foldl (fun t kv => Store.set t kv.1 kv.2) OrdMap.empty).entries.Nodup :=
    List.Pairwise.imp (fun hlt heq => absurd (congrArg Prod.fst heq) (ne_of_lt hlt))
      (OrdMap.sorted _)
  refine (List.perm_ext_iff_of_nodup (List.Nodup.of_map _ hnodup) hentries).mpr fun kv => ?_
  rw [← OrdMap.get_eq_some, get_foldl_set hnodup hfree]
  simp

theorem loadInto_of_ok (h : loadAll b = .ok t) : s.loadInto b = (none, t) := by
  rw [loadInto, withTx, h]

theorem loadAll_of_loadInto (h : s.loadInto b = (none, t)) : loadAll b = .ok t := by
  rw [loadInto, withTx] at h
  rcases hload : loadAll b with e | t' <;> simp only [hload] at h
  · cases h
  · cases h
    rfl

theorem not_dump_of_broken (hb : BreaksOff b ∨ Repeats b) {rows : List (Bytes × Bytes)}
    (hfit : RowsFit rows) (hnodup : (rows.map Prod.fst).Nodup) : b ≠ dumpRows rows := by
  rintro rfl
  rcases hb with
    ⟨begun, kv, rest, hdump, hbegun, hne, ⟨missing, hrow⟩, hpart⟩ | ⟨begun, rest, hdump,
      hbegun, hdup⟩
  · obtain ⟨hkv, hbegun⟩ := List.forall_mem_cons.mp hbegun
    obtain ⟨tail, rfl, rfl⟩ := dumpRows_append_inj hbegun hfit hdump.symm
    have htail : RowsFit tail := fun kv hkv => hfit kv (List.mem_append_right _ hkv)
    obtain ⟨last, hlast, rfl⟩ := dumpRows_append_inj htail (List.forall_mem_singleton.mpr hkv) hrow
    -- the one row is either not begun or whole
    rcases tail with _ | ⟨kv', tail⟩
    · exact hne rfl
    · rw [List.cons_append, List.cons.injEq] at hlast
      obtain ⟨rfl, hnil⟩ := hlast
      rw [(List.append_eq_nil_iff.mp hnil.symm).1] at hpart
      exact hpart rfl
  · obtain ⟨tail, rfl, -⟩ := dumpRows_append_inj hbegun hfit hdump.symm
    rw [List.map_append] at hnodup
    exact hdup (List.nodup_append.mp hnodup).1

theorem loadInto_error (hb : BreaksOff b ∨ Repeats b) (s : Store) :
    ∃ e, s.loadInto b = (some e, s) := by
  rcases hload : loadAll b with e | t
  · exact ⟨e, by rw [loadInto, withTx, hload]⟩
  · obtain ⟨rows, hdump, hfit, hnodup, -⟩ := loadAll_eq_ok hload
    exact absurd hdump (not_dump_of_broken hb hfit hnodup)

end Store

namespace Web

open Store

/-! ## The browser's reading -/

theorem snapshotEntries_eq_ok {fuel : Nat} {data : Bytes} {rows : List (Bytes × Bytes)}
    (hfuel : data.length < fuel)
    (h : snapshotEntries fuel data = .ok rows) : data = dumpRows rows ∧ RowsFit rows := by
  induction fuel generalizing data rows with
  | zero => exact absurd hfuel (Nat.not_lt_zero _)
  | succ fuel ih =>
    rw [snapshotEntries] at h
    split_ifs at h with hempty
    · cases h
      exact ⟨hempty, by simp [RowsFit]⟩
    rcases hk : readNat 4 data with _ | ⟨klen, b⟩ <;> simp only [hk] at h
    · cases h
    rcases hkey : readBytes klen b with _ | ⟨key, b'⟩ <;> simp only [hkey] at h
    · cases h
    rcases hv : readNat 4 b' with _ | ⟨vlen, b''⟩ <;> simp only [hv] at h
    · cases h
    rcases hvalue : readBytes vlen b'' with _ | ⟨value, rest⟩ <;> simp only [hvalue] at h
    · cases h
    rcases hrest : snapshotEntries fuel rest with e | rows' <;> simp only [hrest, Except.map] at h
    · cases h
    cases h
    obtain ⟨hklt, rfl⟩ := readNat_eq_some hk
    obtain ⟨rfl, rfl⟩ := readBytes_eq_some hkey
    obtain ⟨hvlt, rfl⟩ := readNat_eq_some hv
    obtain ⟨rfl, rfl⟩ := readBytes_eq_some hvalue
    have hshort : rest.length < fuel := by
      simp only [List.length_append, length_beBytes] at hfuel
      omega
    obtain ⟨rfl, hfit⟩ := ih hshort hrest
    refine ⟨(dumpRows_cons (key, value) rows').symm, List.forall_mem_cons.mpr ⟨⟨?_, ?_⟩, hfit⟩⟩ <;>
      dsimp only <;> omega

/-- The browser reads exactly the dumps. -/
theorem decodeSnapshotEntries_eq_ok {data : Bytes} {rows : List (Bytes × Bytes)} :
    decodeSnapshotEntries data = .ok rows ↔ data = dumpRows rows ∧ RowsFit rows := by
  refine ⟨snapshotEntries_eq_ok (Nat.lt_succ_self _), ?_⟩
  rintro ⟨rfl, hfit⟩
  exact snapshotEntries_dumpRows hfit (Nat.lt_succ_self _)

/-- **Snapshots.** A dump restores the store it was made of, whatever the target held. Bytes that
break off or repeat a key change nothing. All others mean the same to Go and to the browser. -/
theorem snapshot_determines_store :
    (∀ (source target : Store) (rows : List (Bytes × Bytes)),
      source.Fits → rows.Perm source.entries → target.loadInto (dumpRows rows) = (none, source)) ∧
    (∀ (target : Store) (b : Bytes), BreaksOff b ∨ Repeats b →
      ∃ e, target.loadInto b = (some e, target)) ∧
    (∀ (target : Store) (b : Bytes), ¬Repeats b →
      (∀ pairs, decodeSnapshotEntries b = .ok pairs →
        ∃ t, target.loadInto b = (none, t) ∧ pairs.Perm t.entries) ∧
      (∀ t, target.loadInto b = (none, t) →
        ∃ pairs, decodeSnapshotEntries b = .ok pairs ∧ pairs.Perm t.entries)) := by
  refine ⟨fun source target rows hfits hrows => loadInto_of_ok (loadAll_dumpRows hrows hfits),
    fun target b hb => loadInto_error hb target,
      fun target b hdistinct => ⟨fun pairs hpairs => ?_, fun t ht => ?_⟩⟩
  · obtain ⟨rfl, hfit⟩ := decodeSnapshotEntries_eq_ok.mp hpairs
    have hnodup : (pairs.map Prod.fst).Nodup := by
      by_contra hdup
      exact hdistinct ⟨pairs, [], (List.append_nil _).symm, hfit, hdup⟩
    have hload : loadAll (dumpRows pairs) = .ok _ :=
      loadRows_dumpRows (Nat.lt_succ_self _) hnodup (fun _ _ => rfl) hfit
    obtain ⟨rows, hdump, hfit', -, hperm⟩ := loadAll_eq_ok hload
    have hsame := hpairs.symm.trans (decodeSnapshotEntries_eq_ok.mpr ⟨hdump, hfit'⟩)
    cases hsame
    exact ⟨_, loadInto_of_ok hload, hperm⟩
  · obtain ⟨rows, hdump, hfit, -, hperm⟩ := loadAll_eq_ok (loadAll_of_loadInto ht)
    exact ⟨rows, decodeSnapshotEntries_eq_ok.mpr ⟨hdump, hfit⟩, hperm⟩

def single (key : Bytes) : Store := Store.set OrdMap.empty key []

theorem fits_single : (single (ascii "a")).Fits := by
  intro k v hget
  have hmem := OrdMap.get_eq_some.mp hget
  rw [show (single (ascii "a")).entries = [(ascii "a", [])] by decide, List.mem_singleton] at hmem
  cases hmem
  exact ⟨by decide, by decide⟩

/-- One entry in the place of another, three bytes of a length, and the entry in Go and
in the browser. -/
theorem snapshot_determines_store_single :
    (single (ascii "b")).loadInto (dumpRows [(ascii "a", [])]) = (none, single (ascii "a")) ∧
      (∃ e, (single (ascii "b")).loadInto [0, 0, 0] = (some e, single (ascii "b"))) ∧
      ∃ t, (single (ascii "b")).loadInto (dumpRows [(ascii "a", [])]) = (none, t) ∧
        [(ascii "a", [])].Perm t.entries := by
  obtain ⟨hdump, hbroken, hagree⟩ := snapshot_determines_store
  have hload :=
    hdump (single (ascii "a")) (single (ascii "b")) [(ascii "a", [])] fits_single (by decide)
  have hdistinct : ¬Repeats (dumpRows [(ascii "a", [])]) := by
    intro hrepeats
    obtain ⟨e, he⟩ := hbroken (single (ascii "b")) _ (.inr hrepeats)
    rw [hload] at he
    cases he
  refine ⟨hload, hbroken _ _ (.inl ?_), (hagree _ _ hdistinct).1 [(ascii "a", [])] (by decide)⟩
  exact ⟨[], (ascii "a", []), [0, 0, 0], rfl, by
    simp [RowsFit, ascii], by decide, by decide, by decide⟩

end Web

end KvRaft
