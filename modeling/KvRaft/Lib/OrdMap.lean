import Mathlib.Data.List.Lex
import Mathlib.Data.List.Sort
import Mathlib.Data.Set.Card
import Mathlib.Tactic

/-! # Ordered maps with one representation

A finite map over a linear order, kept as its entries in strictly ascending key order. The order is
a field of the structure, so a map is determined by its lookups:

* `get_eq_some`: a lookup finds exactly the entries of the list.
* `get_insert`, `get_erase`, `get_filter`: the updates, read back.
* `ext_get`: maps with the same lookups are equal.
* `scan`, `mem_scan`: ordered scans of the entries whose key meets a predicate.
* `scan_tail`, `getLast?_scan`: going on past the first entry, and the last one.
* `length_scan_insert`, `length_scan_erase`: how the size of a scan changes.
* `length_scan_eq_ncard`: the size of a scan is the number of keys it selects.
* `ofKeys`, `get_ofKeys`: the map of a function.
-/

/-- Entries in strictly ascending order of their keys. -/
structure OrdMap (κ : Type*) (ν : Type*) [LinearOrder κ] where
  entries : List (κ × ν)
  sorted : entries.Pairwise (fun a b => a.1 < b.1)

namespace OrdMap

variable {κ : Type*} {ν : Type*} [LinearOrder κ]

instance [DecidableEq ν] : DecidableEq (OrdMap κ ν) := fun m m' =>
  decidable_of_iff (m.entries = m'.entries) ⟨fun h => by
    cases m; cases m'; cases h; rfl, congrArg _⟩

/-! ## Operations -/

def empty : OrdMap κ ν := ⟨[], .nil⟩

def lookupEntry (k : κ) : List (κ × ν) → Option ν
  | [] => none
  | e :: t => if k = e.1 then some e.2 else lookupEntry k t

def get (m : OrdMap κ ν) (k : κ) : Option ν := lookupEntry k m.entries

/-- Insertion into a sorted list, replacing the entry of an equal key. -/
def insertEntry (k : κ) (v : ν) : List (κ × ν) → List (κ × ν)
  | [] => [(k, v)]
  | e :: t =>
    if k < e.1 then (k, v) :: e :: t
    else if k = e.1 then (k, v) :: t
    else e :: insertEntry k v t

variable {k : κ} {v : ν} {m : OrdMap κ ν} {p : κ → Bool}

theorem mem_insertEntry {e : κ × ν} :
    ∀ {l : List (κ × ν)}, e ∈ insertEntry k v l → e = (k, v) ∨ e ∈ l
  | [], h => by simpa [insertEntry] using h
  | x :: t, h => by
    unfold insertEntry at h
    split_ifs at h with h1 h2
    · simpa using h
    · rcases List.mem_cons.mp h with h | h
      · exact .inl h
      · exact .inr (List.mem_cons_of_mem _ h)
    · rcases List.mem_cons.mp h with h | h
      · exact .inr (h ▸ List.mem_cons_self)
      · exact (mem_insertEntry h).imp_right (List.mem_cons_of_mem _)

theorem insertEntry_sorted : ∀ {l : List (κ × ν)},
    l.Pairwise (fun a b => a.1 < b.1) → (insertEntry k v l).Pairwise (fun a b => a.1 < b.1)
  | [], _ => List.pairwise_singleton ..
  | x :: t, h => by
    obtain ⟨hx, ht⟩ := List.pairwise_cons.mp h
    unfold insertEntry
    split_ifs with h1 h2
    · refine List.pairwise_cons.mpr ⟨fun e he => ?_, h⟩
      rcases List.mem_cons.mp he with rfl | he
      · exact h1
      · exact h1.trans (hx e he)
    · exact List.pairwise_cons.mpr ⟨fun e he => h2 ▸ hx e he, ht⟩
    · refine List.pairwise_cons.mpr ⟨fun e he => ?_, insertEntry_sorted ht⟩
      rcases mem_insertEntry he with rfl | he
      · exact lt_of_le_of_ne (not_lt.mp h1) (Ne.symm h2)
      · exact hx e he

def insert (m : OrdMap κ ν) (k : κ) (v : ν) : OrdMap κ ν :=
  ⟨insertEntry k v m.entries, insertEntry_sorted m.sorted⟩

def erase (m : OrdMap κ ν) (k : κ) : OrdMap κ ν :=
  ⟨m.entries.filter (fun e => e.1 ≠ k), m.sorted.filter _⟩

def filter (m : OrdMap κ ν) (p : κ → Bool) : OrdMap κ ν :=
  ⟨m.entries.filter (fun e => p e.1), m.sorted.filter _⟩

/-- The entries whose key meets `p`, in ascending order. -/
def scan (m : OrdMap κ ν) (p : κ → Bool) : List (κ × ν) := m.entries.filter (fun e => p e.1)

/-! ## Lookups -/

theorem lookupEntry_eq_some {k : κ} {v : ν} : ∀ {l : List (κ × ν)},
    l.Pairwise (fun a b => a.1 < b.1) → (lookupEntry k l = some v ↔ (k, v) ∈ l)
  | [], _ => by simp [lookupEntry]
  | x :: t, h => by
    obtain ⟨hx, ht⟩ := List.pairwise_cons.mp h
    rw [lookupEntry, List.mem_cons, ← lookupEntry_eq_some ht]
    split_ifs with hk
    · -- later keys are greater, so the head is the only entry under `k`
      subst hk
      have hn : lookupEntry x.1 t ≠ some v := fun hv =>
        lt_irrefl x.1 (hx (x.1, v) ((lookupEntry_eq_some ht).mp hv))
      simp [hn, Prod.ext_iff, eq_comm (a := x.2)]
    · simp [hk, Prod.ext_iff]

theorem get_eq_some :
    m.get k = some v ↔ (k, v) ∈ m.entries := lookupEntry_eq_some m.sorted

theorem get_eq_none : m.get k = none ↔ ∀ v, (k, v) ∉ m.entries := by
  rw [Option.eq_none_iff_forall_ne_some]
  exact forall_congr' fun v => not_congr get_eq_some

@[simp] theorem get_empty (k : κ) : (empty : OrdMap κ ν).get k = none := rfl

theorem lookupEntry_insertEntry {k' : κ} : ∀ (l : List (κ × ν)),
    lookupEntry k' (insertEntry k v l) = if k' = k then some v else lookupEntry k' l
  | [] => rfl
  | x :: t => by
    unfold insertEntry
    split_ifs with h1 h2 h3 h3 h3
    all_goals simp only [lookupEntry]
    all_goals grind [lookupEntry_insertEntry t]

@[grind =]
theorem get_insert (m : OrdMap κ ν) (k k' : κ) (v : ν) :
    (m.insert k v).get k' = if k' = k then some v else m.get k' := lookupEntry_insertEntry m.entries

@[grind =]
theorem get_erase (m : OrdMap κ ν) (k k' : κ) :
    (m.erase k).get k' = if k' = k then none else m.get k' := by
  split_ifs with h
  · refine get_eq_none.mpr fun v hv => ?_
    simp [erase, h] at hv
  · refine Option.ext fun v => ?_
    rw [get_eq_some, get_eq_some]
    simp [erase, h]

theorem get_filter (m : OrdMap κ ν) (p : κ → Bool) (k : κ) :
    (m.filter p).get k = if p k then m.get k else none := by
  refine Option.ext fun v => ?_
  rw [get_eq_some, filter, List.mem_filter, ← get_eq_some]
  split_ifs with h <;> simp [h]

@[simp] theorem get_insert_self (m : OrdMap κ ν) (k : κ) (v : ν) :
    (m.insert k v).get k = some v := by rw [get_insert, if_pos rfl]

theorem ext_get {m' : OrdMap κ ν} (h : ∀ k, m.get k = m'.get k) : m = m' := by
  have nodup : ∀ x : OrdMap κ ν, x.entries.Nodup := fun x =>
    x.sorted.imp fun {a b} hlt (e : a = b) => lt_irrefl _ (e ▸ hlt : b.1 < b.1)
  have hperm : m.entries.Perm m'.entries :=
    (List.perm_ext_iff_of_nodup (nodup m) (nodup m')).mpr fun ⟨k, v⟩ => by
      rw [← get_eq_some, ← get_eq_some, h k]
  have := hperm.eq_of_pairwise (fun a b _ _ hab hba => absurd hab (lt_asymm hba)) m.sorted m'.sorted
  cases m; cases m'; cases this; rfl

/-! ## Scans -/

theorem insert_eq_self : m.insert k v = m ↔ m.get k = some v := by
  refine ⟨fun h => ?_, fun h => ext_get fun k' => ?_⟩
  · rw [← h, get_insert_self]
  · rw [get_insert]
    split_ifs with hk
    · rw [hk, h]
    · rfl

theorem mem_scan :
    (k, v) ∈ m.scan p ↔ p k = true ∧ m.get k = some v := by
  rw [get_eq_some, scan, List.mem_filter, and_comm]

theorem scan_sorted (m : OrdMap κ ν) (p : κ → Bool) :
    (m.scan p).Pairwise (fun a b => a.1 < b.1) := m.sorted.filter _

theorem scan_congr {m' : OrdMap κ ν}
    (h : ∀ k, p k = true → m.get k = m'.get k) : m.scan p = m'.scan p := by
  have : (⟨m.scan p, scan_sorted m p⟩ : OrdMap κ ν) = ⟨m'.scan p, scan_sorted m' p⟩ :=
    ext_get fun k => Option.ext fun v => by
      rw [get_eq_some, get_eq_some, mem_scan, mem_scan]
      exact and_congr_right fun hp => by rw [h k hp]
  exact congrArg entries this

theorem scan_eq_of_iff {q : κ → Bool}
    (h : ∀ k v, m.get k = some v → p k = q k) : m.scan p = m.scan q :=
  List.filter_congr fun e he => h e.1 e.2 (get_eq_some.mpr he)

theorem scan_tail {p' : κ → Bool} {t : List (κ × ν)}
    (h : m.scan p = (k, v) :: t) (hp : ∀ x, p' x = true ↔ p x = true ∧ k < x) : m.scan p' = t := by
  have hfilter : m.scan p' = (m.scan p).filter (fun e => k < e.1) := by
    rw [scan, scan, List.filter_filter]
    refine List.filter_congr fun e _ => ?_
    rw [Bool.eq_iff_iff, hp, Bool.and_eq_true, decide_eq_true_iff, and_comm]
  have hsorted := scan_sorted m p
  rw [h] at hsorted hfilter
  obtain ⟨hlt, -⟩ := List.pairwise_cons.mp hsorted
  rw [hfilter, List.filter_cons, if_neg (by simp)]
  exact List.filter_eq_self.mpr fun e he => decide_eq_true (hlt e he)

theorem getLast?_scan :
    (m.scan p).getLast? = some (k, v) ↔
      p k = true ∧ m.get k = some v ∧ ∀ k' v', p k' = true → m.get k' = some v' → k' ≤ k := by
  rw [← and_assoc, ← mem_scan]
  constructor
  · intro h
    refine ⟨List.mem_of_getLast? h, fun k' v' hp hv => ?_⟩
    obtain ⟨ys, hys⟩ := List.getLast?_eq_some_iff.mp h
    have hsorted := scan_sorted m p
    have hmem := mem_scan.mpr ⟨hp, hv⟩
    rw [hys] at hsorted hmem
    rcases List.mem_append.mp hmem with hmem | hmem
    · exact le_of_lt ((List.pairwise_append.mp hsorted).2.2 _ hmem _ (List.mem_singleton.mpr rfl))
    · rw [List.mem_singleton] at hmem
      cases hmem
      exact le_rfl
  · rintro ⟨hmem, hmax⟩
    rcases hlast : (m.scan p).getLast? with _ | ⟨k', v'⟩
    · rw [List.getLast?_eq_none_iff.mp hlast] at hmem
      cases hmem
    · have hmem' := List.mem_of_getLast? hlast
      obtain ⟨ys, hys⟩ := List.getLast?_eq_some_iff.mp hlast
      have hsorted := scan_sorted m p
      rw [hys] at hsorted hmem
      rcases List.mem_append.mp hmem with hmem | hmem
      · have hlt := (List.pairwise_append.mp hsorted).2.2 _ hmem _ (List.mem_singleton.mpr rfl)
        have hle := hmax k' v' (mem_scan.mp hmem').1 (mem_scan.mp hmem').2
        exact absurd hlt (not_lt.mpr hle)
      · rw [List.mem_singleton.mp hmem]

theorem length_filter_insertEntry (p : κ → Bool) : ∀ {l : List (κ × ν)},
    l.Pairwise (fun a b => a.1 < b.1) →
    ((insertEntry k v l).filter (fun e => p e.1)).length =
      (l.filter (fun e => p e.1)).length + if p k = true ∧ lookupEntry k l = none then 1 else 0
  | [], _ => by
    cases h : p k <;> simp [insertEntry, lookupEntry, h]
  | x :: t, hsorted => by
    obtain ⟨hx, ht⟩ := List.pairwise_cons.mp hsorted
    have ih := length_filter_insertEntry p ht
    by_cases hlt : k < x.1
    · -- all keys are greater, so this one is new
      have hnone : lookupEntry k (x :: t) = none := by
        refine Option.eq_none_iff_forall_ne_some.mpr fun v' hv' => ?_
        rcases List.mem_cons.mp ((lookupEntry_eq_some hsorted).mp hv') with rfl | hmem
        · exact lt_irrefl _ hlt
        · exact lt_asymm hlt (hx _ hmem)
      rw [insertEntry, if_pos hlt, hnone, List.filter_cons]
      cases p k <;> simp
    by_cases heq : k = x.1
    · subst heq
      rw [insertEntry, if_neg hlt, if_pos rfl]
      simp only [lookupEntry, if_true, reduceCtorEq, and_false, if_false, List.filter_cons]
      split_ifs <;> rfl
    · rw [insertEntry, if_neg hlt, if_neg heq]
      simp only [lookupEntry, if_neg heq, List.filter_cons]
      cases hp : p x.1
      · exact ih
      · simp only [if_true, List.length_cons]
        omega

theorem length_scan_insert (m : OrdMap κ ν) (k : κ) (v : ν) (p : κ → Bool) :
    ((m.insert k v).scan p).length =
      (m.scan p).length + if p k = true ∧ m.get k = none then 1 else 0 :=
  length_filter_insertEntry p m.sorted

theorem length_scan_erase (m : OrdMap κ ν) (k : κ) (p : κ → Bool) :
    ((m.erase k).scan p).length ≤ (m.scan p).length :=
  (List.filter_sublist.filter _).length_le

theorem length_scan_eq_ncard (m : OrdMap κ ν) (p : κ → Bool) :
    (m.scan p).length = {k | p k = true ∧ m.get k ≠ none}.ncard := by
  have hnodup : ((m.scan p).map Prod.fst).Nodup :=
    List.pairwise_map.mpr ((scan_sorted m p).imp fun hlt => hlt.ne)
  have hkeys : {k | p k = true ∧ m.get k ≠ none} = ((m.scan p).map Prod.fst).toFinset := by
    ext k
    rw [Set.mem_ofPred_eq, Finset.mem_coe, List.mem_toFinset, Option.ne_none_iff_exists']
    constructor
    · rintro ⟨hp, v, hv⟩
      exact List.mem_map.mpr ⟨(k, v), mem_scan.mpr ⟨hp, hv⟩, rfl⟩
    · intro hk
      obtain ⟨⟨k', v⟩, hmem, rfl⟩ := List.mem_map.mp hk
      obtain ⟨hp, hv⟩ := mem_scan.mp hmem
      exact ⟨hp, v, hv⟩
  rw [hkeys, Set.ncard_coe_finset, List.toFinset_card_of_nodup hnodup, List.length_map]

/-! ## Maps of a function -/

def ofKeys (ks : List κ) (f : κ → ν) : OrdMap κ ν := ks.foldl (fun m k => m.insert k (f k)) empty

theorem get_ofKeys (ks : List κ) (f : κ → ν) (k : κ) :
    (ofKeys ks f).get k = if k ∈ ks then some (f k) else none := by
  have hfold : ∀ m : OrdMap κ ν, (ks.foldl (fun m k => m.insert k (f k)) m).get k =
      if k ∈ ks then some (f k) else m.get k := by
    induction ks with
    | nil => exact fun m => rfl
    | cons k' ks ih =>
      intro m
      rw [List.foldl_cons, ih, get_insert]
      by_cases hk : k ∈ ks
      · simp [hk]
      · by_cases hk' : k = k' <;> simp [hk, hk']
  exact hfold empty

theorem nodup_keys (m : OrdMap κ ν) : (m.entries.map Prod.fst).Nodup :=
  List.pairwise_map.mpr (m.sorted.imp ne_of_lt)

theorem mem_keys : k ∈ m.entries.map Prod.fst ↔ (m.get k).isSome := by
  rw [List.mem_map, Option.isSome_iff_exists]
  constructor
  · rintro ⟨⟨k, v⟩, hmem, rfl⟩
    exact ⟨v, get_eq_some.mpr hmem⟩
  · rintro ⟨v, hv⟩
    exact ⟨(k, v), get_eq_some.mp hv, rfl⟩

end OrdMap
