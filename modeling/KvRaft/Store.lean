import KvRaft.Err
import KvRaft.Lib.Pages

/-! # The store (`pkg/store`)

The SQLite `kv` table: byte-string keys compared byte-wise, one value each. The table is an ordered
map, so two stores with the same lookups are the same store. -/

namespace KvRaft

open Bytes

/-- The `kv` table. -/
abbrev Store := OrdMap Bytes Bytes

namespace Store

def set (s : Store) (key value : Bytes) : Store := s.insert key value

def delete (s : Store) (key : Bytes) : Store := s.erase key

/-- `Get`, with `ErrNotFound` as an error. -/
def get! (s : Store) (key : Bytes) : Except Err Bytes :=
  match s.get key with
  | some v => .ok v
  | none => .error .notFound

/-- The smallest string above every string that begins with `p`: the last byte below `0xFF` is
incremented and what follows it cut. There is none if `p` has no such byte. -/
def prefixUpperBound : Bytes → Option Bytes
  | [] => none
  | b :: p =>
    match prefixUpperBound p with
    | some u => some (b :: u)
    | none => if b < 0xFF then some [b + 1] else none

/-- `key >= p AND key < prefixUpperBound(p)`, without the second part if there is no bound. -/
def hasPrefix (p key : Bytes) : Bool :=
  !decide (key < p) && (prefixUpperBound p).all (fun u => decide (key < u))

def countPrefix (s : Store) (p : Bytes) : Nat := (s.scan (hasPrefix p)).length

def limited {α : Type} (limit : Nat) (l : List α) : List α := if limit = 0 then l else l.take limit

def scanPrefix (s : Store) (p : Bytes) (limit : Nat) : List (Bytes × Bytes) :=
  limited limit (s.scan (hasPrefix p))

def inRange (start stop key : Bytes) : Bool := !decide (key < start) && !decide (stop < key)

def scanRange (s : Store) (start stop : Bytes) (limit : Nat) : List (Bytes × Bytes) :=
  limited limit (s.scan (inRange start stop))

def withTx (s : Store) (fn : Store → Except Err Store) : Option Err × Store :=
  match fn s with
  | .ok s' => (none, s')
  | .error e => (some e, s)

/-! ## Dumps -/

/-- `DumpAll`, given the rows in the order in which the query returned them; the source asks for
none. -/
def dumpRows (rows : List (Bytes × Bytes)) : Bytes :=
  rows.flatMap fun kv => beBytes 4 kv.1.length ++ kv.1 ++ beBytes 4 kv.2.length ++ kv.2

def readField (b : Bytes) : Except Err (Bytes × Bytes) :=
  match readNat 4 b with
  | none => .error .unexpectedEOF
  | some (n, b) =>
    match readBytes n b with
    | none => .error .unexpectedEOF
    | some r => .ok r

/-- The rows of a dump, inserted one after the other. Each takes eight bytes at least, so `fuel`
only has to exceed the length of the dump. -/
def loadRows : Nat → Bytes → Store → Except Err Store
  | 0, _, _ => .error .unexpectedEOF
  | fuel + 1, b, s =>
    if b = [] then .ok s
    else
      match readField b with
      | .error e => .error e
      | .ok (key, b) =>
        match readField b with
        | .error e => .error e
        | .ok (value, b) =>
          -- a plain INSERT: the primary key constraint refuses a second row
          if (s.get key).isSome then .error .uniqueConstraint else loadRows fuel b (s.set key value)

def loadAll (b : Bytes) : Except Err Store := loadRows (b.length + 1) b OrdMap.empty

/-! ## Scans -/

theorem prefixUpperBound_cons (b : UInt8) (p : Bytes) :
    prefixUpperBound (b :: p) =
      ((prefixUpperBound p).map (b :: ·)).or (if b < 0xFF then some [b + 1] else none) := by
  rw [prefixUpperBound]
  cases prefixUpperBound p <;> rfl

theorem lt_add_one_iff {b x : UInt8} (h : b < 0xFF) : x < b + 1 ↔ x ≤ b := by
  rw [UInt8.lt_iff_toNat_lt] at h
  have hb : (b + 1).toNat = b.toNat + 1 := by
    rw [UInt8.toNat_add]
    exact Nat.mod_eq_of_lt (by simp at h ⊢; omega)
  rw [UInt8.lt_iff_toNat_lt, UInt8.le_iff_toNat_le, hb]
  omega

theorem hasPrefix_iff : ∀ {p key : Bytes}, hasPrefix p key = true ↔ p <+: key
  | [], key => by simp [hasPrefix, prefixUpperBound]
  | b :: p, [] => by simp [hasPrefix]
  | b :: p, x :: key => by
    have ih : hasPrefix p key = true ↔ p <+: key := hasPrefix_iff
    rw [List.cons_prefix_cons, ← ih]
    unfold hasPrefix
    rw [prefixUpperBound_cons]
    simp only [Bool.and_eq_true, Bool.not_eq_true', decide_eq_false_iff_not, List.cons_lt_cons_iff]
    cases hu : prefixUpperBound p with
    | some u =>
      simp only [Option.map_some, Option.some_or, Option.all_some, decide_eq_true_eq,
        List.cons_lt_cons_iff]
      grind
    | none =>
      -- no bound below this byte: only the byte itself limits the range
      simp only [Option.map_none, Option.none_or, Option.all_none]
      by_cases hb : b < 0xFF
      · simp only [if_pos hb, Option.all_some, decide_eq_true_eq, List.cons_lt_cons_iff,
          lt_add_one_iff hb]
        have : ¬key < [] := List.not_lt_nil key
        grind
      · have hx : x ≤ b := by
          rw [not_lt, UInt8.le_iff_toNat_le] at hb
          rw [UInt8.le_iff_toNat_le]
          have := x.toNat_lt
          simp at hb
          omega
        simp only [if_neg hb, Option.all_none]
        grind

variable {key p : Bytes} {s : Store} {rows : List (Bytes × Bytes)}

theorem mem_scanPrefix {value : Bytes} :
    (key, value) ∈ s.scanPrefix p 0 ↔ p <+: key ∧ s.get key = some value := by
  simp only [scanPrefix, limited, if_true]
  rw [OrdMap.mem_scan, hasPrefix_iff]

/-- The range that the scans ask for holds the keys that begin with `p`, so a count is the number of
these keys and a scan without a limit lists their records in the order of the keys. -/
theorem prefix_scans_exact (p : Bytes) :
    (∀ key, p <+: key ↔ p ≤ key ∧ ∀ u, prefixUpperBound p = some u → key < u) ∧
      ∀ s : Store, s.countPrefix p = {key | p <+: key ∧ s.get key ≠ none}.ncard ∧
        (∀ key value, (key, value) ∈ s.scanPrefix p 0 ↔ p <+: key ∧ s.get key = some value) ∧
        (s.scanPrefix p 0).Pairwise fun a b => a.1 < b.1 := by
  refine ⟨fun key => ?_,
    fun s => ⟨?_, fun key value => mem_scanPrefix, s.scan_sorted (hasPrefix p)⟩⟩
  · rw [← hasPrefix_iff, hasPrefix]
    simp only [Bool.and_eq_true, Bool.not_eq_true', decide_eq_false_iff_not, not_lt,
      Option.all_eq_true, decide_eq_true_eq]
  · rw [countPrefix, OrdMap.length_scan_eq_ncard]
    simp only [hasPrefix_iff]

theorem countPrefix_set (s : Store) (p key value : Bytes) :
    (s.set key value).countPrefix p =
      s.countPrefix p + if p <+: key ∧ s.get key = none then 1 else 0 := by
  rw [countPrefix, set, OrdMap.length_scan_insert, countPrefix]
  simp only [hasPrefix_iff]

theorem countPrefix_delete (s : Store) (p key : Bytes) :
    (s.delete key).countPrefix p ≤ s.countPrefix p := OrdMap.length_scan_erase s key _

theorem inRange_padded (n : Nat) (h : ∀ r, key = p ++ r → r.head? ≠ some 0xFF) :
    inRange p (p ++ List.replicate (n + 1) 0xFF) key = hasPrefix p key := by
  rw [Bool.eq_iff_iff, hasPrefix_iff]
  simp only [inRange, Bool.and_eq_true, Bool.not_eq_true', decide_eq_false_iff_not]
  constructor
  · rintro ⟨hlo, hhi⟩
    exact List.isPrefix_of_between (List.prefix_refl p) (List.prefix_append ..) hlo hhi
  · rintro ⟨r, rfl⟩
    have hr := h r rfl
    constructor
    · exact List.not_append_lt_self p r
    · rw [List.append_lt_append_left_iff, List.replicate_succ]
      rcases r with _ | ⟨x, r⟩
      · exact List.not_lt_nil _
      · rw [List.cons_lt_cons_iff]
        rintro (hx | ⟨rfl, -⟩)
        · rw [UInt8.lt_iff_toNat_lt] at hx
          have := x.toNat_lt
          simp at hx
          omega
        · exact hr rfl

theorem not_lt_append_zero : ∀ {a b : Bytes}, ¬b < a ++ [0x00] ↔ a < b
  | [], [] => by decide
  | [], y :: b => by
    have hy : ¬y < (0x00 : UInt8) := by simp [UInt8.lt_iff_toNat_lt]
    have hb : ¬b < [] := List.not_lt_nil b
    simp only [List.nil_append, List.cons_lt_cons_iff, List.nil_lt_cons, iff_true]
    rintro (h | ⟨-, h⟩)
    · exact hy h
    · exact hb h
  | x :: a, [] => by simp
  | x :: a, y :: b => by
    have ih := not_lt_append_zero (a := a) (b := b)
    simp only [List.cons_append, List.cons_lt_cons_iff]
    grind

theorem inRange_append_zero (key hi x : Bytes) {lo : Bytes} (hlo : ¬key < lo) :
    inRange (key ++ [0x00]) hi x = true ↔ inRange lo hi x = true ∧ key < x := by
  unfold inRange
  simp only [Bool.and_eq_true, Bool.not_eq_true', decide_eq_false_iff_not, not_lt_append_zero]
  constructor
  · rintro ⟨hlt, hhi⟩
    exact ⟨⟨not_lt.mpr ((not_lt.mp hlo).trans hlt.le), hhi⟩, hlt⟩
  · rintro ⟨⟨-, hhi⟩, hlt⟩
    exact ⟨hlt, hhi⟩

/-- A reader that asks for the first entry of a range, and again from right behind each key it was
given, folds over the range. -/
theorem pages_range {β : Type} {next : Bytes → Option (Bytes × Bytes)} {hi : Bytes}
    (Asks : Bytes → Prop) (hasks : ∀ key, Asks (key ++ [0x00]))
    (hnext : ∀ lo, Asks lo → next lo = (s.scan (inRange lo hi)).head?)
    (f : β → Bytes × Bytes → β × Bool) {lo : Bytes} (hlo : Asks lo) (b : β) :
    OrdMap.pages next (fun key => key ++ [0x00]) f (s.entries.length + 1) lo b =
      (s.scan (inRange lo hi)).foldUntil f b := by
  refine OrdMap.pages_eq hnext hasks (fun lo k hk x => ?_) f b hlo
    (Nat.lt_succ_of_le (List.length_filter_le _ _))
  simp only [inRange, Bool.and_eq_true, Bool.not_eq_true', decide_eq_false_iff_not] at hk
  exact inRange_append_zero k hi x hk.1

theorem scanRange_congr {s' : Store} {start stop : Bytes} (limit : Nat)
    (h : ∀ k, inRange start stop k = true → s.get k = s'.get k) :
    s.scanRange start stop limit = s'.scanRange start stop limit := by
  rw [scanRange, scanRange, OrdMap.scan_congr h]

theorem scanPrefix_congr {s' : Store} (limit : Nat)
    (h : ∀ k, p <+: k → s.get k = s'.get k) : s.scanPrefix p limit = s'.scanPrefix p limit := by
  rw [scanPrefix, scanPrefix, OrdMap.scan_congr fun k hk => h k (hasPrefix_iff.mp hk)]

/-! ## Loading a dump -/

/-- Every key and value has a length that fits the four bytes `DumpAll` gives it. -/
def Fits (s : Store) : Prop := ∀ k v, s.get k = some v → k.length < 2 ^ 32 ∧ v.length < 2 ^ 32

theorem readField_append {x : Bytes} (h : x.length < 2 ^ 32) (rest : Bytes) :
    readField (beBytes 4 x.length ++ (x ++ rest)) = .ok (x, rest) := by
  have h4 : x.length < 256 ^ 4 := lt_of_lt_of_eq h (by norm_num)
  rw [readField, readNat_beBytes_append h4]
  simp only [readBytes_append]

theorem dumpRows_cons (kv : Bytes × Bytes) (rows : List (Bytes × Bytes)) :
    dumpRows (kv :: rows) =
      beBytes 4 kv.1.length ++ (kv.1 ++ (beBytes 4 kv.2.length ++ (kv.2 ++ dumpRows rows))) := by
  simp [dumpRows]

theorem loadRows_record {b b₁ b₂ value : Bytes} (hne : b ≠ [])
    (hk : readField b = .ok (key, b₁)) (hv : readField b₁ = .ok (value, b₂)) (hs : s.get key = none)
    (fuel : Nat) : loadRows (fuel + 1) b s = loadRows fuel b₂ (s.set key value) := by
  rw [loadRows, if_neg hne]
  simp only [hk, hv, hs, Option.isSome_none, Bool.false_eq_true, if_false]

theorem loadRows_dumpRows {fuel : Nat}
    (hf : (dumpRows rows).length < fuel) (hn : (rows.map Prod.fst).Nodup)
    (hs : ∀ kv ∈ rows, s.get kv.1 = none)
    (hl : ∀ kv ∈ rows, kv.1.length < 2 ^ 32 ∧ kv.2.length < 2 ^ 32) :
    loadRows fuel (dumpRows rows) s = .ok (rows.foldl (fun t kv => t.set kv.1 kv.2) s) := by
  induction rows generalizing s fuel with
  | nil =>
    cases fuel with
    | zero => exact absurd hf (Nat.not_lt_zero _)
    | succ fuel => rfl
  | cons kv rows ih =>
    cases fuel with
    | zero => exact absurd hf (Nat.not_lt_zero _)
    | succ fuel =>
      obtain ⟨hkn, hn⟩ := List.nodup_cons.mp hn
      have hlen : (dumpRows rows).length < fuel := by
        rw [dumpRows_cons] at hf
        simp only [List.length_append, length_beBytes] at hf
        omega
      have hs' : ∀ kv' ∈ rows, (s.set kv.1 kv.2).get kv'.1 = none := fun kv' hm => by
        have : kv'.1 ≠ kv.1 := fun e => hkn (e ▸ List.mem_map_of_mem hm)
        rw [set, OrdMap.get_insert, if_neg this]
        exact hs kv' (List.mem_cons_of_mem _ hm)
      obtain ⟨hk, hv⟩ := hl kv List.mem_cons_self
      have hne : dumpRows (kv :: rows) ≠ [] :=
        List.ne_nil_of_length_pos (by simp [dumpRows_cons])
      rw [loadRows_record hne (dumpRows_cons kv rows ▸ readField_append hk _)
        (readField_append hv _) (hs kv List.mem_cons_self)]
      exact ih hlen hn hs' fun kv' hm => hl kv' (List.mem_cons_of_mem _ hm)

theorem get_foldl_set (hn : (rows.map Prod.fst).Nodup)
    (hs : ∀ kv ∈ rows, s.get kv.1 = none) (k v : Bytes) :
    (rows.foldl (fun t kv => t.set kv.1 kv.2) s).get k = some v ↔
      (k, v) ∈ rows ∨ s.get k = some v := by
  induction rows generalizing s with
  | nil => simp
  | cons kv rows ih =>
    obtain ⟨hkn, hn⟩ := List.nodup_cons.mp hn
    have hs' : ∀ kv' ∈ rows, (s.set kv.1 kv.2).get kv'.1 = none := fun kv' hm => by
      have : kv'.1 ≠ kv.1 := fun e => hkn (e ▸ List.mem_map_of_mem hm)
      rw [set, OrdMap.get_insert, if_neg this]
      exact hs kv' (List.mem_cons_of_mem _ hm)
    have hnone := hs kv List.mem_cons_self
    rw [List.foldl_cons, ih hn hs', set, OrdMap.get_insert, List.mem_cons, Prod.ext_iff]
    grind

/-- **Dump and load.** The rows of a store, in whatever order they were dumped, load
to that store. -/
theorem loadAll_dumpRows (hp : rows.Perm s.entries)
    (hf : s.Fits) : loadAll (dumpRows rows) = .ok s := by
  have hn : (rows.map Prod.fst).Nodup :=
    ((hp.map Prod.fst).nodup_iff).mpr (List.pairwise_map.mpr (s.sorted.imp ne_of_lt))
  have hl : ∀ kv ∈ rows, kv.1.length < 2 ^ 32 ∧ kv.2.length < 2 ^ 32 := fun kv hm =>
    hf kv.1 kv.2 (OrdMap.get_eq_some.mpr (hp.mem_iff.mp hm))
  rw [loadAll, loadRows_dumpRows (Nat.lt_succ_self _) hn (fun _ _ => rfl) hl]
  refine congrArg _ (OrdMap.ext_get fun k => Option.ext fun v => ?_)
  rw [get_foldl_set hn (fun _ _ => rfl), OrdMap.get_eq_some (m := s), ← hp.mem_iff]
  simp

end Store

end KvRaft
