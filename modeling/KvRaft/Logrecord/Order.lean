import KvRaft.Logrecord.Key

/-! # The order of log keys

Kind and unit stand in a key with their lengths, so no two kinds or units run into each other; the
time follows with a fixed width, so from the epoch on the order of the keys is the order of time. -/

namespace KvRaft.Logrecord

open Bytes

theorem buildKey_eq_ok {kind unitID rnd key : Bytes} {ts : Int} :
    buildKey kind unitID ts rnd = .ok key ↔
      kind.length ≤ maxFieldLen ∧ unitID.length ≤ maxFieldLen ∧
      key = kindUnitPrefix kind unitID ++ (beBytes 8 (uint64 ts) ++ rnd) := by
  unfold buildKey
  split_ifs with hkind hunit
  · simp [hkind]
  · simp [hunit]
  · simp only [Except.ok.injEq, not_lt.mp hkind, not_lt.mp hunit, true_and, kindUnitPrefix,
      List.cons_append, List.append_assoc, eq_comm]

theorem uint64_of_nonneg {ts : Int} (h : 0 ≤ ts) (hlt : ts < 2 ^ 63) : uint64 ts = ts.toNat := by
  unfold uint64
  omega

section Fields

variable {kind kind' unitID unitID' x y : Bytes}

theorem kindPrefix_append_inj (hk : kind.length ≤ maxFieldLen) (hk' : kind'.length ≤ maxFieldLen)
    (h : kindPrefix kind ++ x = kindPrefix kind' ++ y) : kind = kind' ∧ x = y := by
  simp only [kindPrefix, List.cons_append, List.append_assoc, List.cons.injEq, true_and] at h
  unfold maxFieldLen at hk hk'
  exact sized_append_inj (by omega) (by omega) h

theorem kindUnitPrefix_eq (kind unitID : Bytes) :
    kindUnitPrefix kind unitID = kindPrefix kind ++ (beBytes 2 unitID.length ++ unitID) := by
  simp [kindUnitPrefix, kindPrefix]

theorem kindUnitPrefix_append_inj (hk : kind.length ≤ maxFieldLen)
    (hk' : kind'.length ≤ maxFieldLen)
    (hu : unitID.length ≤ maxFieldLen) (hu' : unitID'.length ≤ maxFieldLen)
    (h : kindUnitPrefix kind unitID ++ x = kindUnitPrefix kind' unitID' ++ y) :
    kind = kind' ∧ unitID = unitID' ∧ x = y := by
  simp only [kindUnitPrefix_eq, List.append_assoc] at h
  obtain ⟨hkind, hrest⟩ := kindPrefix_append_inj hk hk' h
  unfold maxFieldLen at hu hu'
  exact ⟨hkind, sized_append_inj (by omega) (by omega) hrest⟩

theorem kindUnitPrefix_append_lt_iff {m n : Nat} (hm : m < 256 ^ 8) (hn : n < 256 ^ 8) :
    kindUnitPrefix kind unitID ++ (beBytes 8 m ++ x) <
      kindUnitPrefix kind unitID ++ (beBytes 8 n ++ y) ↔ m < n ∨ m = n ∧ x < y := by
  have hlen : (beBytes 8 m).length = (beBytes 8 n).length := by simp
  have hlt : beBytes 8 m < beBytes 8 n ↔ m < n := by
    rw [← beNat_lt_beNat_iff hlen, beNat_beBytes hm, beNat_beBytes hn]
  have heq : beBytes 8 m = beBytes 8 n ↔ m = n := by
    refine ⟨fun h => ?_, fun h => h ▸ rfl⟩
    rw [← beNat_beBytes hm, h, beNat_beBytes hn]
  rw [List.append_lt_append_left_iff, List.append_lt_append_iff hlen, hlt, heq]

end Fields

/-! ## Built keys -/

section Built

variable {kind unitID rnd rnd' key key' : Bytes} {ts ts' : Int64}

theorem parseKey_of_buildKey (h : buildKey kind unitID ts.toInt rnd = .ok key) :
    parseKey key = .ok ⟨kind, unitID, ts.toInt⟩ :=
  parseKey_buildKey ⟨ts.le_toInt, ts.toInt_lt⟩ h

theorem buildKey_inj {kind' unitID' : Bytes} (h : buildKey kind unitID ts.toInt rnd = .ok key)
    (h' : buildKey kind' unitID' ts'.toInt rnd' = .ok key) :
    kind = kind' ∧ unitID = unitID' ∧ ts = ts' ∧ rnd = rnd' := by
  -- kind, unit and time are what the key parses to; the random part is what is left
  have hparse := parseKey_of_buildKey h
  rw [parseKey_of_buildKey h', Except.ok.injEq, ParsedKey.mk.injEq] at hparse
  obtain ⟨rfl, rfl, hts⟩ := hparse
  obtain rfl : ts' = ts := Int64.toInt_inj.mp hts
  obtain ⟨-, -, rfl⟩ := buildKey_eq_ok.mp h
  obtain ⟨-, -, hrest⟩ := buildKey_eq_ok.mp h'
  exact ⟨rfl, rfl, rfl, List.append_cancel_left (List.append_cancel_left hrest)⟩

theorem buildKey_lt_iff (h : buildKey kind unitID ts.toInt rnd = .ok key)
    (h' : buildKey kind unitID ts'.toInt rnd' = .ok key') (hts : 0 ≤ ts.toInt)
    (hts' : 0 ≤ ts'.toInt) :
    key < key' ↔ ts.toInt < ts'.toInt ∨ ts.toInt = ts'.toInt ∧ rnd < rnd' := by
  obtain ⟨-, -, rfl⟩ := buildKey_eq_ok.mp h
  obtain ⟨-, -, rfl⟩ := buildKey_eq_ok.mp h'
  have hlt := ts.toInt_lt
  have hlt' := ts'.toInt_lt
  rw [uint64_of_nonneg hts hlt, uint64_of_nonneg hts' hlt',
    kindUnitPrefix_append_lt_iff (by omega) (by omega)]
  have hltNat : ts.toInt.toNat < ts'.toInt.toNat ↔ ts.toInt < ts'.toInt := by omega
  have heqNat : ts.toInt.toNat = ts'.toInt.toNat ↔ ts.toInt = ts'.toInt := by omega
  rw [hltNat, heqNat]

end Built

/-! ## Ranges of keys -/

section Ranges

variable {kind unitID key : Bytes} {k : ParsedKey}

theorem kindPrefix_isPrefix (kind unitID : Bytes) :
    kindPrefix kind <+: kindUnitPrefix kind unitID :=
  ⟨_, (kindUnitPrefix_eq kind unitID).symm⟩

theorem kind_of_kindPrefix (hk : kind.length ≤ maxFieldLen) (h : kindPrefix kind <+: key)
    (hkey : parseKey key = .ok k) : k.kind = kind := by
  obtain ⟨hkind, -, rest, -, rfl⟩ := parseKey_ok hkey
  obtain ⟨x, hx⟩ := h
  rw [kindUnitPrefix_eq, List.append_assoc] at hx
  exact (kindPrefix_append_inj hk hkind hx).1.symm

theorem unit_of_scanBounds {start stop : Int} (hk : kind.length ≤ maxFieldLen)
    (hu : unitID.length ≤ maxFieldLen) (hlo : (scanBounds kind unitID start stop).1 ≤ key)
    (hhi : key ≤ (scanBounds kind unitID start stop).2) (hkey : parseKey key = .ok k) :
    k.kind = kind ∧ k.unitID = unitID := by
  obtain ⟨hkind, hunit, rest, -, rfl⟩ := parseKey_ok hkey
  -- both ends begin with the kind and the unit, so everything between them does
  obtain ⟨x, hx⟩ : kindUnitPrefix kind unitID <+: kindUnitPrefix k.kind k.unitID ++ rest :=
    List.isPrefix_of_between ⟨_, rfl⟩ ⟨_, rfl⟩ hlo.not_gt hhi.not_gt
  obtain ⟨hk', hu', -⟩ := kindUnitPrefix_append_inj hk hkind hu hunit hx
  exact ⟨hk'.symm, hu'.symm⟩

theorem not_replicate_lt : ∀ {n : Nat} {b : Bytes}, b.length ≤ n → ¬List.replicate n 0xFF < b
  | _, [], _ => List.not_lt_nil _
  | n + 1, x :: b, hl => by
    rw [List.replicate_succ, List.cons_lt_cons_iff]
    rintro (hx | ⟨-, hlt⟩)
    · rw [UInt8.lt_iff_toNat_lt] at hx
      have := x.toNat_lt
      simp only [UInt8.reduceToNat] at hx
      omega
    · exact not_replicate_lt (Nat.le_of_succ_le_succ hl) hlt

theorem between_scanBounds {rnd : Bytes} {ts start stop : Int}
    (h : buildKey kind unitID ts rnd = .ok key)
    (hrnd : rnd.length = randSize) (hts : 0 ≤ ts) (hlt : ts < 2 ^ 63) (hstart : start < 2 ^ 63)
    (hstop : stop < 2 ^ 63) :
    (¬key < (scanBounds kind unitID start stop).1 ∧ ¬(scanBounds kind unitID start stop).2 < key) ↔
      start ≤ ts ∧ ts ≤ max 0 stop := by
  obtain ⟨-, -, rfl⟩ := buildKey_eq_ok.mp h
  have hlo :=
    @kindUnitPrefix_append_lt_iff kind unitID rnd [] ts.toNat start.toNat (by omega) (by omega)
  have hhi :=
    @kindUnitPrefix_append_lt_iff kind unitID (List.replicate randSize 0xFF) rnd stop.toNat ts.toNat
    (by omega) (by omega)
  rw [List.append_nil] at hlo
  unfold scanBounds nonNegativeUnixNano
  dsimp only
  rw [uint64_of_nonneg hts hlt, hlo, hhi]
  have hff := not_replicate_lt hrnd.le
  have hnil := List.not_lt_nil rnd
  simp only [hff, hnil, and_false, or_false]
  omega

theorem between_scanBounds_iff {rnd : Bytes} {ts now : Int64}
    (h : buildKey kind unitID ts.toInt rnd = .ok key)
    (hrnd : rnd.length = randSize) (hts : 0 ≤ ts.toInt) :
    (¬key < (scanBounds kind unitID 0 now.toInt).1 ∧
      ¬(scanBounds kind unitID 0 now.toInt).2 < key) ↔ ts.toInt ≤ max 0 now.toInt := by
  rw [between_scanBounds h hrnd hts ts.toInt_lt (by decide) now.toInt_lt]
  exact and_iff_right hts

end Ranges

/-- Log keys are unambiguous and ordered by time, and ranges of them keep to their kind and unit. -/
theorem logKeys_ordered :
    (∀ kind unitID kind' unitID' rnd rnd' key (ts ts' : Int64),
      buildKey kind unitID ts.toInt rnd = .ok key →
        buildKey kind' unitID' ts'.toInt rnd' = .ok key →
      kind = kind' ∧ unitID = unitID' ∧ ts = ts' ∧ rnd = rnd') ∧
    (∀ kind unitID rnd key (ts : Int64), buildKey kind unitID ts.toInt rnd = .ok key →
      parseKey key = .ok ⟨kind, unitID, ts.toInt⟩) ∧
    (∀ kind unitID rnd rnd' key key' (ts ts' : Int64), buildKey kind unitID ts.toInt rnd = .ok key →
      buildKey kind unitID ts'.toInt rnd' = .ok key' → 0 ≤ ts.toInt → 0 ≤ ts'.toInt →
      (key < key' ↔ ts.toInt < ts'.toInt ∨ ts.toInt = ts'.toInt ∧ rnd < rnd')) ∧
    (∀ kind unitID key k (start stop : Int),
      kind.length ≤ maxFieldLen → unitID.length ≤ maxFieldLen →
      parseKey key = .ok k → (scanBounds kind unitID start stop).1 ≤ key →
      key ≤ (scanBounds kind unitID start stop).2 → k.kind = kind ∧ k.unitID = unitID) ∧
    (∀ kind key k, kind.length ≤ maxFieldLen → parseKey key = .ok k → kindPrefix kind <+: key →
      k.kind = kind) := by
  refine ⟨?_, ?_, ?_, ?_, ?_⟩
  · intro kind unitID kind' unitID' rnd rnd' key ts ts' h h'
    exact buildKey_inj h h'
  · intro kind unitID rnd key ts h
    exact parseKey_of_buildKey h
  · intro kind unitID rnd rnd' key key' ts ts' h h' hts hts'
    exact buildKey_lt_iff h h' hts hts'
  · intro kind unitID key k start stop hk hu hkey hlo hhi
    exact unit_of_scanBounds hk hu hlo hhi hkey
  · intro kind key k hk hkey h
    exact kind_of_kindPrefix hk h hkey

/-- The keys of one unit a nanosecond apart, the earlier one with the greater random part. -/
theorem logKeys_ordered_nanosecond :
    ∃ key key', buildKey [0x61] [0x62] (Int64.ofNat 5).toInt [0xFF] = .ok key ∧
      buildKey [0x61] [0x62] (Int64.ofNat 6).toInt [0x00] = .ok key' ∧ key < key' ∧
      parseKey key = .ok ⟨[0x61], [0x62], 5⟩ :=
  ⟨_, _, rfl, rfl,
    (logKeys_ordered.2.2.1 [0x61] [0x62] [0xFF] [0x00] _ _ (.ofNat 5) (.ofNat 6) rfl rfl
    (by decide) (by decide)).mpr (by decide),
    logKeys_ordered.2.1 [0x61] [0x62] [0xFF] _ (.ofNat 5) rfl⟩

end KvRaft.Logrecord
