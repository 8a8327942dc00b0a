import KvRaft.Encoding.Json
import KvRaft.Logrecord.Key
import KvRaft.Lib.OrdMap

/-! # Log records (`pkg/logrecord/record.go`)

The JSON body of a log record, decoded as `json.Unmarshal` decodes it into the `Record` struct: keys
are matched up to case, later members overwrite earlier ones, `null` leaves a field alone, and any
value of another type than its field's makes the whole record an error. -/

namespace KvRaft.Logrecord

open Bytes Encoding

/-! ## Times -/

/-- An instant, in nanoseconds since the Unix epoch, and the offset of its zone in seconds. -/
structure Time where
  unixNano : Int
  offset : Int
deriving DecidableEq, Repr

/-- Days from the epoch to a date of the proleptic Gregorian calendar. -/
def daysFromCivil (year month day : Nat) : Int :=
  -- years start in March, so that the leap day is the last of its year
  let y : Int := if month ≤ 2 then year - 1 else year
  let m : Nat := if month ≤ 2 then month + 9 else month - 3
  let doy : Nat := (153 * m + 2) / 5 + (day - 1)
  365 * y + y / 4 - y / 100 + y / 400 + doy - 719468

def isLeap (year : Nat) : Bool := year % 4 == 0 && (year % 100 != 0 || year % 400 == 0)

def daysIn (month year : Nat) : Nat :=
  if month = 2 then if isLeap year then 29 else 28
  else if month ∈ [4, 6, 9, 11] then 30
  else 31

def Time.zero : Time := ⟨daysFromCivil 1 1 1 * 86400 * 1000000000, 0⟩

/-! `Time.UnmarshalJSON` reads a timestamp with `time.Parse(time.RFC3339, s)`: the strict checks
that `parseStrictRFC3339` has after it are switched off. So an hour may have one digit, a fraction
may follow a comma, and the offset of a zone may have 24 hours or 60 minutes. What follows are the
chunks of the layout `2006-01-02T15:04:05Z07:00` as `time.parse` takes them off the value. -/

/-- `atoi`, for digits. -/
def atoi (ds : Bytes) : Nat := ds.foldl (fun n c => n * 10 + (c.toNat - 0x30)) 0

/-- `getnum`: two digits, or one if the chunk is not `fixed`. -/
def getnum (fixed : Bool) : Bytes → Option (Nat × Bytes)
  | [] => none
  | c :: b =>
    if Json.isDigit c then
      match b with
      | c' :: b' =>
        if Json.isDigit c' then some (atoi [c, c'], b')
        else if fixed then none
        else some (atoi [c], b)
      | [] => if fixed then none else some (atoi [c], b)
    else none

/-- `skip`, for a separator of the layout. -/
def skip (sep : UInt8) : Bytes → Option Bytes
  | [] => none
  | c :: b => if c = sep then some b else none

/-- The chunk `2006`. -/
def getYear (b : Bytes) : Option (Nat × Bytes) :=
  if b.length < 4 ∨ ¬(b.take 4).all Json.isDigit then none else some (atoi (b.take 4), b.drop 4)

/-- The fraction that may follow the seconds although the layout has none: the nanoseconds, the
tenth digit and later ones cut. -/
def getFraction : Bytes → Nat × Bytes
  | [] => (0, [])
  | c :: b =>
    let ds := b.takeWhile Json.isDigit
    if (c = 0x2E ∨ c = 0x2C) ∧ ds ≠ [] then
      (atoi (ds.take 9) * 10 ^ (9 - (ds.take 9).length), b.dropWhile Json.isDigit)
    else (0, c :: b)

/-- The chunk `Z07:00`: the offset in seconds. -/
def getZone : Bytes → Option (Int × Bytes)
  | 0x5A :: b => some (0, b)
  | sign :: h :: h' :: 0x3A :: m :: m' :: b => do
    let (hr, _) ← getnum true [h, h']
    let (mm, _) ← getnum true [m, m']
    if hr > 24 ∨ mm > 60 then none
    let off : Int := (hr * 60 + mm) * 60
    if sign = 0x2B then return (off, b)
    else if sign = 0x2D then return (-off, b)
    else none
  | _ => none

/-- `time.Parse(time.RFC3339, s)`. -/
def parseRFC3339 (s : Bytes) : Option Time := do
  let (year, s) ← getYear s
  let (month, s) ← getnum true (← skip 0x2D s)
  if month < 1 ∨ 12 < month then none
  let (day, s) ← getnum true (← skip 0x2D s)
  let (hour, s) ← getnum false (← skip 0x54 s)
  if 24 ≤ hour then none
  let (min, s) ← getnum true (← skip 0x3A s)
  if 60 ≤ min then none
  let (sec, s) ← getnum true (← skip 0x3A s)
  if 60 ≤ sec then none
  let (nsec, s) := getFraction s
  let (off, s) ← getZone s
  if s ≠ [] then none
  -- the day is checked last, against its month
  if day < 1 ∨ daysIn month year < day then none
  let secs : Int := daysFromCivil year month day * 86400 + hour * 3600 + min * 60 + sec - off
  return ⟨secs * 1000000000 + nsec, off⟩

/-! ## Records -/

structure Record where
  kind : Bytes
  unitID : Bytes
  timestamp : Time
  authorPeerID : Bytes
  fields : OrdMap Bytes Bytes
  narrative : Bytes
deriving DecidableEq

def Record.zero : Record := ⟨[], [], .zero, [], OrdMap.empty, []⟩

def recordFields : List Bytes :=
  [ascii "kind", ascii "unit_id", ascii "timestamp", ascii "author_peer_id", ascii "fields",
    ascii "narrative"]

def decodeTime (old : Time) : Json → Option Time
  | .null => some old
  | .str raw => parseRFC3339 raw
  | _ => none

/-- The members of the `fields` object, added to the map. -/
def decodeFieldMap (m : OrdMap Bytes Bytes) : List (Bytes × Json) → Option (OrdMap Bytes Bytes)
  | [] => some m
  | (k, v) :: kvs =>
    match Json.decodeString [] v with
    | none => none
    | some v => decodeFieldMap (m.insert (Json.unquote k) v) kvs

def decodeFields (old : OrdMap Bytes Bytes) : Json → Option (OrdMap Bytes Bytes)
  | .null => some OrdMap.empty
  | .obj kvs => decodeFieldMap old kvs
  | _ => none

/-- One member of the record's object. A key that matches no field is skipped. -/
def decodeMember (r : Record) (key : Bytes) (v : Json) : Option Record :=
  match Json.matchField recordFields (Json.unquote key) with
  | none => some r
  | some name =>
    if name = ascii "kind" then (Json.decodeString r.kind v).map fun x => { r with kind := x }
    else if name = ascii "unit_id" then
      (Json.decodeString r.unitID v).map fun x => { r with unitID := x }
    else if name = ascii "timestamp" then
      (decodeTime r.timestamp v).map fun x => { r with timestamp := x }
    else if name = ascii "author_peer_id" then
      (Json.decodeString r.authorPeerID v).map fun x => { r with authorPeerID := x }
    else if name = ascii "fields" then (decodeFields r.fields v).map fun x => { r with fields := x }
    else (Json.decodeString r.narrative v).map fun x => { r with narrative := x }

def decodeMembers (r : Record) : List (Bytes × Json) → Option Record
  | [] => some r
  | (k, v) :: kvs =>
    match decodeMember r k v with
    | none => none
    | some r => decodeMembers r kvs

def decode (data : Bytes) : Except Err Record :=
  match Json.parse data with
  | none => .error .jsonSyntax
  | some .null => .ok .zero
  | some (.obj kvs) =>
    match decodeMembers .zero kvs with
    | none => .error .jsonType
    | some r => .ok r
  | some _ => .error .jsonType

end KvRaft.Logrecord
