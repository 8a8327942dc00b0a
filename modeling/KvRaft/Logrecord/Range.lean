import KvRaft.Logrecord.Order

/-! # Queries over a span of time

The bounds of a query are instants that Go can represent, which are many more than those whose
nanoseconds fit 64 bits. `UnixNano` wraps around for the others, and `nonNegativeUnixNano` only
mends what comes out negative. -/

namespace KvRaft.Logrecord

/-- A `time.Time`: seconds since the first of January of the year 1, and nanoseconds. -/
structure Instant where
  sec : Int64
  nsec : Nat
  nsec_lt : nsec < 10 ^ 9

namespace Instant

/-- The seconds from the year 1 to the epoch. -/
def unixToInternal : Int := 62135596800

/-- Nanoseconds since the epoch, however many. -/
def nanos (t : Instant) : Int := (t.sec.toInt - unixToInternal) * 10 ^ 9 + t.nsec

/-- The same count in 64 bits. -/
def unixNano (t : Instant) : Int := int64 (uint64 t.nanos)

theorem unixNano_lt (t : Instant) : t.unixNano < 2 ^ 63 := by
  unfold unixNano int64 uint64
  split_ifs <;> omega

theorem unixNano_of_lt {t : Instant} (hlo : -2 ^ 63 ≤ t.nanos) (hhi : t.nanos < 2 ^ 63) :
    t.unixNano = t.nanos := by
  unfold unixNano int64 uint64
  split_ifs <;> omega

theorem nsec_ofNanos (n : Int) : (n % 10 ^ 9).toNat < 10 ^ 9 := by omega

def ofNanos (n : Int) : Instant :=
  ⟨Int64.ofInt (n / 10 ^ 9 + unixToInternal), (n % 10 ^ 9).toNat, nsec_ofNanos n⟩

theorem nanos_ofNanos {n : Int} (hlo : 0 ≤ n) (hhi : n < 2 ^ 64) : (ofNanos n).nanos = n := by
  have hsec : (Int64.ofInt (n / 10 ^ 9 + unixToInternal)).toInt = n / 10 ^ 9 + unixToInternal := by
    unfold unixToInternal
    exact Int64.toInt_ofInt_of_le (by omega) (by omega)
  unfold nanos ofNanos
  dsimp only
  rw [hsec]
  omega

end Instant

/-- Every record of the unit from the epoch on, up to the last nanosecond that 64 bits hold, is
between the bounds if its time is. -/
def MissesNothing (kind unitID : Bytes) (start stop : Instant) : Prop :=
  ∀ (t : Instant) (rnd key : Bytes), start.nanos ≤ t.nanos → t.nanos ≤ stop.nanos → 0 ≤ t.nanos →
    t.nanos < 2 ^ 63 → rnd.length = randSize → buildKey kind unitID t.unixNano rnd = .ok key →
    (scanBounds kind unitID start.unixNano stop.unixNano).1 ≤ key ∧
      key ≤ (scanBounds kind unitID start.unixNano stop.unixNano).2

section Query

variable {kind unitID : Bytes} {start stop : Instant}

theorem missesNothing_iff (hk : kind.length ≤ maxFieldLen) (hu : unitID.length ≤ maxFieldLen) :
    MissesNothing kind unitID start stop ↔
      ∀ n : Int, start.nanos ≤ n → n ≤ stop.nanos → 0 ≤ n → n < 2 ^ 63 →
        start.unixNano ≤ n ∧ n ≤ max 0 stop.unixNano := by
  have hkey (n : Int) (rnd : Bytes) : ∃ key, buildKey kind unitID n rnd = .ok key :=
    ⟨_, buildKey_eq_ok.mpr ⟨hk, hu, rfl⟩⟩
  constructor
  · intro h n hstart hstop hlo hhi
    have hn : (Instant.ofNanos n).nanos = n := Instant.nanos_ofNanos hlo (by omega)
    have hunix : (Instant.ofNanos n).unixNano = n := by
      rw [Instant.unixNano_of_lt] <;> omega
    obtain ⟨key, hbuilt⟩ := hkey n (List.replicate randSize 0)
    have hbetween :=
      h (.ofNanos n) (List.replicate randSize 0) key (by omega) (by omega) (by omega) (by omega)
      (by simp) (by rw [hunix, hbuilt])
    rw [← between_scanBounds hbuilt (by simp) hlo hhi start.unixNano_lt stop.unixNano_lt,
      not_lt, not_lt]
    exact hbetween
  · intro h t rnd key hstart hstop hlo hhi hrnd hbuilt
    have hunix : t.unixNano = t.nanos := Instant.unixNano_of_lt (by omega) hhi
    rw [hunix] at hbuilt
    rw [← not_lt, ← not_lt,
      between_scanBounds hbuilt hrnd hlo hhi start.unixNano_lt stop.unixNano_lt]
    exact h t.nanos hstart hstop hlo hhi

/-- A query misses nothing exactly if there is nothing in its span, or if an early start does not
come out after the epoch and a late end comes out as the last nanosecond. -/
theorem query_misses_nothing_iff (kind unitID : Bytes) {start stop : Instant}
    (horder : start.nanos ≤ stop.nanos) :
    MissesNothing kind unitID start stop ↔
      (kind.length ≤ maxFieldLen → unitID.length ≤ maxFieldLen → 0 ≤ stop.nanos →
        start.nanos < 2 ^ 63 → (0 ≤ start.nanos ∨ start.unixNano ≤ 0) ∧
          (stop.nanos < 2 ^ 63 ∨ stop.unixNano = 2 ^ 63 - 1)) := by
  by_cases hlen : kind.length ≤ maxFieldLen ∧ unitID.length ≤ maxFieldLen
  swap
  · refine iff_of_true ?_ fun hk hu => absurd ⟨hk, hu⟩ hlen
    intro t rnd key _ _ _ _ _ hbuilt
    obtain ⟨hk, hu, -⟩ := buildKey_eq_ok.mp hbuilt
    exact absurd ⟨hk, hu⟩ hlen
  obtain ⟨hk, hu⟩ := hlen
  rw [missesNothing_iff hk hu]
  have hstop := stop.unixNano_lt
  constructor
  · intro h _ _ hspan hspan'
    -- the first and the last nanosecond of the span
    have hfirst := h (max 0 start.nanos) (by omega) (by omega) (by omega) (by omega)
    have hlast := h (min stop.nanos (2 ^ 63 - 1)) (by omega) (by omega) (by omega) (by omega)
    omega
  · intro h n hstart hend hlo hhi
    obtain ⟨hearly, hlate⟩ := h hk hu (by omega) (by omega)
    have hexact : 0 ≤ start.nanos → start.unixNano = start.nanos := fun h0 =>
      Instant.unixNano_of_lt (by omega) (by omega)
    have hexact' : stop.nanos < 2 ^ 63 → stop.unixNano = stop.nanos := fun h1 =>
      Instant.unixNano_of_lt (by omega) h1
    omega

end Query

/-- A day in 1970. -/
theorem query_misses_nothing_day :
    MissesNothing [0x61] [0x62] (.ofNanos 0) (.ofNanos (86400 * 10 ^ 9)) := by
  have hstart : (Instant.ofNanos 0).nanos = 0 := Instant.nanos_ofNanos (by decide) (by decide)
  have hstop : (Instant.ofNanos (86400 * 10 ^ 9)).nanos = 86400 * 10 ^ 9 :=
    Instant.nanos_ofNanos (by decide) (by decide)
  refine (query_misses_nothing_iff [0x61] [0x62] (by rw [hstart, hstop]; decide)).mpr fun _ _ _ _ =>
    ⟨?_, ?_⟩
  · exact .inl hstart.ge
  · exact .inl (by rw [hstop]; decide)

/-- From the epoch to the first nanosecond that does not fit, in 2262: the record of the first
second is beyond the end. -/
theorem query_empty :
    (Instant.ofNanos 0).nanos ≤ (Instant.ofNanos (10 ^ 9)).nanos ∧
      (Instant.ofNanos (10 ^ 9)).nanos ≤ (Instant.ofNanos (2 ^ 63)).nanos ∧
      ∃ key,
        buildKey [0x61] [0x62] (Instant.ofNanos (10 ^ 9)).unixNano (List.replicate randSize 0) =
          .ok key ∧
        (scanBounds [0x61] [0x62] (Instant.ofNanos 0).unixNano
          (Instant.ofNanos (2 ^ 63)).unixNano).2 < key := by
  refine ⟨by decide, by decide, _, rfl, by decide⟩

end KvRaft.Logrecord
