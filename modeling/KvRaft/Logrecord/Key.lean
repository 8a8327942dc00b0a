import KvRaft.Err

/-! # Log record keys (`pkg/logrecord/key.go`)

A log record lies under `[0x01][kind length][kind][unit length][unit][timestamp][random]`, so a
range of keys is one kind's, one unit's or one span of time. Times are Unix nanoseconds. -/

namespace KvRaft.Logrecord

open Bytes

def logKeyPrefix : UInt8 := 0x01

def maxFieldLen : Nat := 0xFFFF

def randSize : Nat := 8

/-- `uint64` of a signed 64-bit number. -/
def uint64 (n : Int) : Nat := (n % 2 ^ 64).toNat

/-- `int64` of an unsigned 64-bit number. -/
def int64 (n : Nat) : Int := if n < 2 ^ 63 then n else n - 2 ^ 64

def buildKey (kind unitID : Bytes) (ts : Int) (rnd : Bytes) : Except Err Bytes :=
  if kind.length > maxFieldLen then .error (.kindTooLong kind.length)
  else if unitID.length > maxFieldLen then .error (.unitIDTooLong unitID.length)
  else
    .ok (logKeyPrefix :: (beBytes 2 kind.length ++ (kind ++ (beBytes 2 unitID.length ++
      (unitID ++ (beBytes 8 (uint64 ts) ++ rnd))))))

structure ParsedKey where
  kind : Bytes
  unitID : Bytes
  ts : Int
deriving DecidableEq, Repr

/-- Bytes after the timestamp are not looked at. -/
def parseKey : Bytes → Except Err ParsedKey
  | [] => .error .keyMissingLogKeyPrefix
  | p :: rest =>
    if p ≠ logKeyPrefix then .error .keyMissingLogKeyPrefix
    else
      match readNat 2 rest with
      | none => .error .keyTruncatedBeforeKindLength
      | some (kindLen, rest) =>
        match readBytes kindLen rest with
        | none => .error .keyTruncatedInKind
        | some (kind, rest) =>
          match readNat 2 rest with
          | none => .error .keyTruncatedBeforeUnitIDLength
          | some (unitIDLen, rest) =>
            match readBytes unitIDLen rest with
            | none => .error .keyTruncatedInUnitID
            | some (unitID, rest) =>
              match readNat 8 rest with
              | none => .error .keyTruncatedBeforeTimestamp
              | some (ts, _) => .ok ⟨kind, unitID, int64 ts⟩

/-- The beginning shared by the keys of one unit. The lengths are `uint16` conversions. -/
def kindUnitPrefix (kind unitID : Bytes) : Bytes :=
  logKeyPrefix :: (beBytes 2 kind.length ++ (kind ++ (beBytes 2 unitID.length ++ unitID)))

def nonNegativeUnixNano (ts : Int) : Nat := ts.toNat

/-- The keys of one unit from `start` to `stop`, both included. -/
def scanBounds (kind unitID : Bytes) (start stop : Int) : Bytes × Bytes :=
  (kindUnitPrefix kind unitID ++ beBytes 8 (nonNegativeUnixNano start),
   kindUnitPrefix kind unitID ++
    (beBytes 8 (nonNegativeUnixNano stop) ++ List.replicate randSize 0xFF))

def kindPrefix (kind : Bytes) : Bytes := logKeyPrefix :: (beBytes 2 kind.length ++ kind)

theorem scanBounds_mono (kind unitID : Bytes) (start : Int) {stop stop' : Int} (h : stop ≤ stop')
    (hlt : stop' < 2 ^ 63) :
    (scanBounds kind unitID start stop).2 ≤ (scanBounds kind unitID start stop').2 := by
  have hbytes : beBytes 8 (nonNegativeUnixNano stop) ≤ beBytes 8 (nonNegativeUnixNano stop') := by
    refine beBytes_le_beBytes (Int.toNat_le_toNat h) ?_
    unfold nonNegativeUnixNano
    omega
  rw [← not_lt]
  unfold scanBounds
  rw [List.append_lt_append_left_iff, not_lt]
  exact List.append_le_append_right (by simp) hbytes _

/-! ## Parsing -/

theorem parseKey_buildKey {kind unitID rnd key : Bytes} {ts : Int}
    (hts : -2 ^ 63 ≤ ts ∧ ts < 2 ^ 63) (h : buildKey kind unitID ts rnd = .ok key) :
    parseKey key = .ok ⟨kind, unitID, ts⟩ := by
  unfold buildKey at h
  split_ifs at h with hk hu
  cases h
  have hlt : uint64 ts < 256 ^ 8 := by unfold uint64; omega
  have hint : int64 (uint64 ts) = ts := by
    unfold int64 uint64
    split_ifs <;> omega
  simp only [maxFieldLen, not_lt] at hk hu
  rw [parseKey, if_neg (by simp), readNat_beBytes_append (by omega)]
  simp only [readBytes_append]
  rw [readNat_beBytes_append (by omega)]
  simp only [readBytes_append]
  rw [readNat_beBytes_append hlt]
  simp only [hint]

theorem parseKey_ok {key : Bytes} {k : ParsedKey} (h : parseKey key = .ok k) :
    k.kind.length ≤ maxFieldLen ∧ k.unitID.length ≤ maxFieldLen ∧
      ∃ rest, 8 ≤ rest.length ∧ key = kindUnitPrefix k.kind k.unitID ++ rest := by
  cases key with
  | nil => cases h
  | cons p rest =>
    rw [parseKey] at h
    split_ifs at h with hp
    split at h
    · cases h
    · rename_i kindLen r₁ h₁
      obtain ⟨hk, rfl⟩ := readNat_eq_some h₁
      split at h
      · cases h
      · rename_i kind r₂ h₂
        obtain ⟨rfl, rfl⟩ := readBytes_eq_some h₂
        split at h
        · cases h
        · rename_i unitLen r₃ h₃
          obtain ⟨hu, rfl⟩ := readNat_eq_some h₃
          split at h
          · cases h
          · rename_i unitID r₄ h₄
            obtain ⟨rfl, rfl⟩ := readBytes_eq_some h₄
            split at h
            · cases h
            · rename_i ts r₅ h₅
              obtain ⟨-, rfl⟩ := readNat_eq_some h₅
              have hk : kind.length ≤ maxFieldLen := by unfold maxFieldLen; omega
              have hu : unitID.length ≤ maxFieldLen := by unfold maxFieldLen; omega
              cases h
              refine ⟨hk, hu, beBytes 8 ts ++ r₅, by simp, ?_⟩
              simp [kindUnitPrefix, not_not.mp hp]

end KvRaft.Logrecord
