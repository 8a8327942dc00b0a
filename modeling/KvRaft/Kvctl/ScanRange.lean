import KvRaft.Daemon.Dispatch
import KvRaft.Kvctl.Permission

/-! # Reading a whole range (`Session.ScanRange` of `pkg/shmclient/kv.go`)

A client collects the pairs of a range by one call for each of them, and then turns them around,
skips and cuts them off. In ascending order it stops calling when it has what it needs. An answer
without a key tells it that the range has ended. -/

namespace KvRaft.Kvctl

open Bytes EStateM

/-- The switch over `order`: whether it is descending. -/
def parseRangeOrder (order : Bytes) : Except Err Bool :=
  if order = [] ∨ order = ascii "asc" then .ok false
  else if order = ascii "desc" then .ok true
  else .error (.scanRangeOrder order)

/-- One round of the loop: the pair is appended, and there may be enough of them. -/
def collect (enough : Int64) (pairs : List (Bytes × Bytes)) (kv : Bytes × Bytes) :
    List (Bytes × Bytes) × Bool :=
  let pairs := pairs ++ [kv]
  (pairs, decide (0 < enough ∧ enough.toInt ≤ pairs.length))

def slice (limit skip : Int64) (descending : Bool) (pairs : List (Bytes × Bytes)) :
    List (Bytes × Bytes) :=
  let pairs := if descending then pairs.reverse else pairs
  if skip.toInt ≥ pairs.length then []
  else
    let pairs := pairs.drop skip.toInt.toNat
    if 0 < limit ∧ pairs.length > limit.toInt then pairs.take limit.toInt.toNat else pairs

/-- `Session.ScanRange`, on a node whose entries do not change meanwhile. `skip + limit`
may wrap around. -/
def scanRange (s : Store) (start stop : Bytes) (limit skip : Int64) (order : Bytes) :
    Except Err (List (Bytes × Bytes)) :=
  if limit < 0 then .error (.scanRangeLimit limit)
  else if skip < 0 then .error (.scanRangeSkip skip)
  else
    match parseRangeOrder order with
    | .error e => .error e
    | .ok descending =>
      let enough := if descending = false ∧ 0 < limit then skip + limit else 0
      let pairs :=
        OrdMap.pages (fun lo => listRange s lo stop) (fun key => key ++ [0x00]) (collect enough)
        (s.entries.length + 1) start []
      .ok (slice limit skip descending pairs)

/-- The pairs of the range in the order asked for, without the first `skip`, and `limit` of them at
most; a limit of zero is none. -/
def rangeSlice (s : Store) (start stop : Bytes) (limit skip : Nat) (descending : Bool) :
    List (Bytes × Bytes) :=
  let pairs := s.scan (Store.inRange start stop)
  Store.limited limit ((if descending then pairs.reverse else pairs).drop skip)

/-! ## The slice -/

section Slice

variable {limit skip : Int64} {descending : Bool} {pairs : List (Bytes × Bytes)}

theorem toNat_toInt_pos {n : Int64} (h : 0 ≤ n) : n.toInt = n.toInt.toNat :=
  (Int.toNat_of_nonneg (Int64.le_iff_toInt_le.mp h)).symm

theorem slice_eq (hlimit : 0 ≤ limit) (hskip : 0 ≤ skip) :
    slice limit skip descending pairs =
      Store.limited limit.toInt.toNat
        ((if descending then pairs.reverse else pairs).drop skip.toInt.toNat) := by
  have hl := toNat_toInt_pos hlimit
  have hs := toNat_toInt_pos hskip
  unfold slice Store.limited
  generalize (if descending then pairs.reverse else pairs) = l
  dsimp only
  have hpos : 0 < limit ↔ limit.toInt.toNat ≠ 0 := by
    rw [Int64.lt_iff_toInt_lt]
    change (0 : Int) < _ ↔ _
    omega
  simp only [hpos]
  split_ifs with hall hzero hcut hzero hzero
  · rw [List.drop_eq_nil_of_le (by omega)]
  · rw [List.drop_eq_nil_of_le (by omega), List.take_nil]
  · exact absurd hzero hcut.1
  · rfl
  · rfl
  · rw [List.take_of_length_le]
    rw [not_and, not_lt] at hcut
    have := hcut hzero
    omega

theorem limited_drop_take (l : List (Bytes × Bytes)) {limit : Nat} (hlimit : limit ≠ 0)
    (skip : Nat) :
    Store.limited limit ((l.take (skip + limit)).drop skip) =
      Store.limited limit (l.drop skip) := by
  rw [Store.limited, if_neg hlimit, Store.limited, if_neg hlimit, List.drop_take,
    Nat.add_sub_cancel_left, List.take_take, min_self]

end Slice

/-! ## The loop -/

section Loop

variable {s : Store} {start stop order : Bytes} {limit skip : Int64} {descending : Bool}

theorem foldUntil_collect (enough : Int64) (l : List (Bytes × Bytes)) :
    l.foldUntil (collect enough) [] = if 0 < enough then l.take enough.toInt.toNat else l := by
  split_ifs with hpos
  · have henough := toNat_toInt_pos (Int64.le_of_lt hpos)
    have hcollect : collect enough =
        fun acc a => (acc ++ [a], decide (enough.toInt.toNat ≤ (acc ++ [a]).length)) := by
      funext acc a
      unfold collect
      simp only [hpos, true_and, Prod.mk.injEq, decide_eq_decide]
      omega
    have hlt : ([] : List (Bytes × Bytes)).length < enough.toInt.toNat := by
      rw [Int64.lt_iff_toInt_lt] at hpos
      change (0 : Int) < _ at hpos
      rw [List.length_nil]
      omega
    rw [hcollect, List.foldUntil_collect l hlt, List.nil_append, List.length_nil, Nat.sub_zero]
  · have hcollect : collect enough = fun acc a => (acc ++ [a], false) := by
      funext acc a
      unfold collect
      simp only [hpos, false_and, decide_false]
    rw [hcollect, List.foldUntil_append, List.nil_append]

theorem toInt_enough (hlimit : 0 < limit) (hskip : 0 ≤ skip) (hpos : 0 < skip + limit) :
    (skip + limit).toInt.toNat = skip.toInt.toNat + limit.toInt.toNat := by
  have hl := Int64.toInt_lt limit
  have hs := Int64.toInt_lt skip
  rw [Int64.lt_iff_toInt_lt] at hlimit hpos
  rw [Int64.le_iff_toInt_le] at hskip
  rw [Int64.toInt_add] at hpos ⊢
  change (0 : Int) < _ at hlimit hpos
  change (0 : Int) ≤ _ at hskip
  rw [Int.bmod_def] at hpos ⊢
  omega

theorem slice_foldUntil (hlimit : 0 ≤ limit) (hskip : 0 ≤ skip) :
    slice limit skip descending ((s.scan (Store.inRange start stop)).foldUntil
        (collect (if descending = false ∧ 0 < limit then skip + limit else 0)) []) =
      rangeSlice s start stop limit.toInt.toNat skip.toInt.toNat descending := by
  rw [slice_eq hlimit hskip, foldUntil_collect, rangeSlice]
  generalize s.scan (Store.inRange start stop) = l
  by_cases hasc : descending = false ∧ 0 < limit
  · obtain ⟨rfl, hpos⟩ := hasc
    simp only [hpos, and_self, if_true, Bool.false_eq_true, if_false]
    split_ifs with henough
    · rw [toInt_enough hpos hskip henough]
      refine limited_drop_take l ?_ _
      rw [Int64.lt_iff_toInt_lt] at hpos
      change (0 : Int) < _ at hpos
      omega
    · rfl
  · have hnever : ¬(0 : Int64) < 0 := by decide
    simp only [if_neg hasc, if_neg hnever]

theorem scanRange_eq (hlimit : 0 ≤ limit) (hskip : 0 ≤ skip)
    (horder : parseRangeOrder order = .ok descending) :
    scanRange s start stop limit skip order =
      .ok (slice limit skip descending
        (OrdMap.pages (fun lo => listRange s lo stop) (fun key => key ++ [0x00])
          (collect (if descending = false ∧ 0 < limit then skip + limit else 0))
          (s.entries.length + 1) start [])) := by
  rw [scanRange, if_neg (Int64.not_lt.mpr hlimit), if_neg (Int64.not_lt.mpr hskip), horder]

/-- The client returns what was asked for, if no answer of the node is the entry under
the empty key. -/
theorem scanRange_eq_of_asks (hlimit : 0 ≤ limit) (hskip : 0 ≤ skip)
    (horder : parseRangeOrder order = .ok descending) (hasks : start ≠ [] ∨ s.get [] = none) :
    scanRange s start stop limit skip order =
      .ok (rangeSlice s start stop limit.toInt.toNat skip.toInt.toNat descending) := by
  rw [scanRange_eq hlimit hskip horder, ← slice_foldUntil hlimit hskip]
  rw [Store.pages_range (fun lo => lo ≠ [] ∨ s.get [] = none) (by simp)
    (fun lo hlo => listRange_eq_head? hlo stop) _ hasks]

/-- The entry under the empty key is the first of every range that begins with it, and
ends the loop. -/
theorem listRange_nil {v : Bytes} (hget : s.get [] = some v) : listRange s [] stop = none := by
  have hmem : ([], v) ∈ s.scan (Store.inRange [] stop) :=
    OrdMap.mem_scan.mpr ⟨by simp [Store.inRange], hget⟩
  rw [listRange, Store.scanRange, Store.limited, if_neg Nat.one_ne_zero]
  rcases hscan : s.scan (Store.inRange [] stop) with _ | ⟨⟨key, value⟩, rest⟩
  · rfl
  have hsorted := OrdMap.scan_sorted s (Store.inRange [] stop)
  rw [hscan] at hmem hsorted
  have hkey : key = [] := by
    rcases List.mem_cons.mp hmem with heq | hrest
    · exact (Prod.mk.inj heq).1.symm
    · exact absurd ((List.pairwise_cons.mp hsorted).1 _ hrest) (List.not_lt_nil _)
  simp only [List.take_succ_cons, hkey, if_true]

theorem rangeSlice_eq_nil {limit skip : Nat} :
    rangeSlice s start stop limit skip descending = [] ↔
      (s.scan (Store.inRange start stop)).length ≤ skip := by
  have hlen : (if descending then (s.scan (Store.inRange start stop)).reverse
      else s.scan (Store.inRange start stop)).length =
        (s.scan (Store.inRange start stop)).length := by
    split_ifs
    · exact List.length_reverse
    · rfl
  rw [← hlen, ← List.drop_eq_nil_iff, rangeSlice, Store.limited]
  generalize (if descending then (s.scan (Store.inRange start stop)).reverse
    else s.scan (Store.inRange start stop)) = l
  split_ifs with hzero
  · rfl
  · rw [List.take_eq_nil_iff, or_iff_right hzero]

end Loop

/-- **Range scans.** The client's range scan is the slice of the range, except for a range that
begins with an entry under the empty key, of which it returns nothing. -/
theorem scan_range_eq_iff (s : Store) (start stop order : Bytes) (limit skip : Int64)
    (descending : Bool)
    (hlimit : 0 ≤ limit) (hskip : 0 ≤ skip) (horder : parseRangeOrder order = .ok descending) :
    scanRange s start stop limit skip order =
        .ok (rangeSlice s start stop limit.toInt.toNat skip.toInt.toNat descending) ↔
      (start = [] → s.get [] ≠ none →
        (s.scan (Store.inRange start stop)).length ≤ skip.toInt.toNat) := by
  by_cases hasks : start ≠ [] ∨ s.get [] = none
  · refine iff_of_true (scanRange_eq_of_asks hlimit hskip horder hasks) fun hstart hsome => ?_
    exact absurd hasks (not_or.mpr ⟨not_not.mpr hstart, hsome⟩)
  · obtain ⟨hstart, hsome⟩ := not_or.mp hasks
    obtain rfl := not_not.mp hstart
    obtain ⟨v, hget⟩ := Option.ne_none_iff_exists'.mp hsome
    have hnothing : scanRange s [] stop limit skip order = .ok [] := by
      rw [scanRange_eq hlimit hskip horder, OrdMap.pages, listRange_nil hget, slice_eq hlimit hskip]
      simp [Store.limited]
    rw [hnothing, Except.ok.injEq, eq_comm, rangeSlice_eq_nil]
    exact ⟨fun h _ _ => h, fun h => h rfl hsome⟩

def twoKeys : Store := (Store.set OrdMap.empty (ascii "a") [1]).set (ascii "b") [2]

theorem scan_range_eq_two : scanRange twoKeys [] (ascii "c") 1 1 (ascii "desc") =
    .ok (rangeSlice twoKeys [] (ascii "c") 1 1 true) :=
  (scan_range_eq_iff twoKeys [] (ascii "c") (ascii "desc") 1 1 true (by decide) (by decide)
    (by decide)).mpr
    fun _ h => absurd (by decide) h

/-- A node that has accepted a write under `a`, and one under the empty key. -/
def hiddenNode : Daemon.Node :=
  let caller : Daemon.CallerIdentity := ⟨[], none⟩
  let first :=
    (Daemon.dispatch {} caller 0
      (.set ⟨ascii "a", Shmevent.Data.length_single_lt _⟩ ⟨[], Shmevent.Data.length_nil_lt⟩)).final
    (Daemon.Node.alone [] OrdMap.empty)
  (Daemon.dispatch {} caller 0
    (.set ⟨[], Shmevent.Data.length_nil_lt⟩ ⟨[], Shmevent.Data.length_nil_lt⟩)).final first

/-- The range from the beginning is empty for the client. -/
theorem scan_range_hidden : hiddenNode.store.entries = [([], []), (ascii "a", [])] ∧
    scanRange hiddenNode.store [] (ascii "z") 0 0 [] = .ok [] ∧
    rangeSlice hiddenNode.store [] (ascii "z") 0 0 false = [([], []), (ascii "a", [])] := by
  refine ⟨?_, ?_, ?_⟩ <;> decide

end KvRaft.Kvctl
