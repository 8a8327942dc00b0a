import KvRaft.Logrecord.Order

/-! # Log record keys in the browser (`web-app/src/logrecord.rs`)

The browser writes the same keys as a node and asks for the same ranges, except that it does not
take a time before the epoch for the epoch. -/

namespace KvRaft.Web.Logrecord

open Bytes KvRaft.Logrecord

def randSize : Nat := 8

/-- `whole_nanoseconds() as i64`. -/
def unixNanos (ts : Int) : Int := int64 (uint64 ts)

def toBeBytes (n : Int) : Bytes := beBytes 8 (uint64 n)

/-- A length in two bytes, pushed one after the other. -/
def pushLen (n : Nat) : Bytes := [UInt8.ofNat (n >>> 8), UInt8.ofNat n]

def kindUnitPrefix (kind unitID : Bytes) : Bytes :=
  logKeyPrefix :: (pushLen kind.length ++ (kind ++ (pushLen unitID.length ++ unitID)))

def buildKey (kind unitID : Bytes) (ts : Int) (rnd : Bytes) : Except Err Bytes :=
  if kind.length > 0xFFFF then .error (.kindTooLong kind.length)
  else if unitID.length > 0xFFFF then .error (.unitIDTooLong unitID.length)
  else
    .ok (logKeyPrefix :: (pushLen kind.length ++ (kind ++ (pushLen unitID.length ++
      (unitID ++ (toBeBytes (unixNanos ts) ++ rnd))))))

def scanBounds (kind unitID : Bytes) (start stop : Int) : Bytes × Bytes :=
  (kindUnitPrefix kind unitID ++ toBeBytes (unixNanos start),
   kindUnitPrefix kind unitID ++ (toBeBytes (unixNanos stop) ++ List.replicate randSize 0xFF))

/-! ## Against the node's -/

theorem pushLen_eq (n : Nat) : pushLen n = beBytes 2 n := by
  rw [beBytes_two, pushLen, Nat.shiftRight_eq_div_pow]

theorem kindUnitPrefix_eq_go (kind unitID : Bytes) :
    kindUnitPrefix kind unitID = KvRaft.Logrecord.kindUnitPrefix kind unitID := by
  rw [kindUnitPrefix, KvRaft.Logrecord.kindUnitPrefix, pushLen_eq, pushLen_eq]

theorem unixNanos_toInt (ts : Int64) : unixNanos ts.toInt = ts.toInt := by
  have hlo := ts.le_toInt
  have hhi := ts.toInt_lt
  unfold unixNanos int64 uint64
  split_ifs <;> omega

theorem buildKey_eq (kind unitID : Bytes) (ts : Int64) (rnd : Bytes) :
    buildKey kind unitID ts.toInt rnd = KvRaft.Logrecord.buildKey kind unitID ts.toInt rnd := by
  rw [buildKey, KvRaft.Logrecord.buildKey, unixNanos_toInt, pushLen_eq, pushLen_eq]
  rfl

theorem uint64_eq_nonNegative_iff (ts : Int64) :
    uint64 ts.toInt = nonNegativeUnixNano ts.toInt ↔ 0 ≤ ts.toInt := by
  have hlo := ts.le_toInt
  have hhi := ts.toInt_lt
  unfold uint64 nonNegativeUnixNano
  omega

theorem beBytes_uint64_eq_iff (ts : Int64) :
    toBeBytes (unixNanos ts.toInt) = beBytes 8 (nonNegativeUnixNano ts.toInt) ↔ 0 ≤ ts.toInt := by
  have hhi := ts.toInt_lt
  have hword : uint64 ts.toInt < 256 ^ 8 := by
    unfold uint64
    omega
  have hclamped : nonNegativeUnixNano ts.toInt < 256 ^ 8 := by
    unfold nonNegativeUnixNano
    omega
  rw [unixNanos_toInt, toBeBytes, ← uint64_eq_nonNegative_iff]
  constructor
  · intro h
    rw [← beNat_beBytes hword, h, beNat_beBytes hclamped]
  · intro h
    rw [h]

theorem scanBounds_eq_iff (kind unitID : Bytes) (start stop : Int64) :
    scanBounds kind unitID start.toInt stop.toInt =
        KvRaft.Logrecord.scanBounds kind unitID start.toInt stop.toInt ↔
      0 ≤ start.toInt ∧ 0 ≤ stop.toInt := by
  have hpad :
      List.replicate randSize (0xFF : UInt8) = List.replicate KvRaft.Logrecord.randSize 0xFF := rfl
  unfold scanBounds KvRaft.Logrecord.scanBounds
  rw [kindUnitPrefix_eq_go, hpad, Prod.mk.injEq, List.append_cancel_left_eq,
    List.append_cancel_left_eq,
    List.append_cancel_right_eq, beBytes_uint64_eq_iff, beBytes_uint64_eq_iff]

/-- The browser's keys are a node's, and its ranges exactly if they neither begin nor end
before the epoch. -/
theorem same_log_keys_iff (kind unitID : Bytes) (ts start stop : Int64) :
    ((∀ rnd,
      buildKey kind unitID ts.toInt rnd = KvRaft.Logrecord.buildKey kind unitID ts.toInt rnd) ∧
      scanBounds kind unitID start.toInt stop.toInt =
        KvRaft.Logrecord.scanBounds kind unitID start.toInt stop.toInt) ↔
      0 ≤ start.toInt ∧ 0 ≤ stop.toInt := by
  rw [← scanBounds_eq_iff kind unitID start stop]
  exact and_iff_right fun rnd => buildKey_eq kind unitID ts rnd

/-- A nanosecond before the epoch is after every other time in the browser, and the epoch
on a node. -/
theorem bounds_inverted :
    scanBounds [0x61] [0x62] (-1) 0 ≠ KvRaft.Logrecord.scanBounds [0x61] [0x62] (-1) 0 ∧
      (scanBounds [0x61] [0x62] (-1) 0).2 < (scanBounds [0x61] [0x62] (-1) 0).1 ∧
      (KvRaft.Logrecord.scanBounds [0x61] [0x62] (-1) 0).1 ≤
        (KvRaft.Logrecord.scanBounds [0x61] [0x62] (-1) 0).2 := by
  decide

end KvRaft.Web.Logrecord
