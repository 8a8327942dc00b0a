import KvRaft.Lib.Bytes
import KvRaft.Lib.Reach

/-! # Chunks over a shared ring (`pkg/chandata/chandata.go`)

The data plane of a channel: one side writes chunks into a ring of bytes, each behind a header with
its purpose and its size, and the other side takes them out again. Both sides wait with a time
limit, and a call that runs out of time leaves what it has done so far behind: a part of a frame in
the ring, or a frame whose beginning is gone from it. -/

namespace KvRaft.Chandata

open Bytes

def capacity : Nat := 2 ^ 20

def maxChunkSize : Nat := 256 * 1024

def chunkHeaderSize : Nat := 1 + 4

structure Chunk where
  purpose : UInt8
  data : Bytes
deriving DecidableEq, Repr

namespace Chunk

def header (c : Chunk) : Bytes := c.purpose :: beBytes 4 c.data.length

def frame (c : Chunk) : Bytes := c.header ++ c.data

@[simp] theorem length_header (c : Chunk) : c.header.length = chunkHeaderSize := by
  simp [header, chunkHeaderSize]

theorem frame_ne_nil (c : Chunk) : c.frame ≠ [] := nofun

theorem beNat_tail_header {c : Chunk} (h : c.data.length ≤ maxChunkSize) :
    beNat c.header.tail = c.data.length :=
  beNat_beBytes (lt_of_le_of_lt h (by decide))

theorem frame_append_inj {c d : Chunk} (hc : c.data.length ≤ maxChunkSize)
    (hd : d.data.length ≤ maxChunkSize)
    {x y : Bytes} (h : c.frame ++ x = d.frame ++ y) : c = d ∧ x = y := by
  rw [frame, frame, List.append_assoc, List.append_assoc] at h
  obtain ⟨hheader, hrest⟩ := List.append_inj h (by simp)
  have hsize : c.data.length = d.data.length := by
    rw [← beNat_tail_header hc, ← beNat_tail_header hd, hheader]
  obtain ⟨hdata, hxy⟩ := List.append_inj hrest hsize
  cases c
  cases d
  exact ⟨congrArg₂ mk (List.cons.inj hheader).1 hdata, hxy⟩

end Chunk

/-! ## The two sides -/

/-- Where the call of `WriteChunk` is, with the bytes of its header or of its payload
that are written. -/
inductive ChunkWriter
  | idle
  | header (c : Chunk) (sent : Nat)
  | payload (c : Chunk) (sent : Nat)
deriving DecidableEq, Repr

namespace ChunkWriter

def buffer : ChunkWriter → Bytes
  | idle => []
  | header c sent => c.header.drop sent
  | payload c sent => c.data.drop sent

def add (n : Nat) : ChunkWriter → ChunkWriter
  | idle => idle
  | header c sent => header c (sent + n)
  | payload c sent => payload c (sent + n)

/-- The way on, once `WriteContext` has written everything. -/
def next : ChunkWriter → ChunkWriter
  | idle => idle
  | header c sent =>
    if sent < chunkHeaderSize then header c sent
    else if c.data = [] then idle
    else payload c 0
  | payload c sent => if sent < c.data.length then payload c sent else idle

end ChunkWriter

/-- Where the call of `ReadChunk` is, with the bytes of the header or of the payload
that were read. -/
inductive ChunkReader
  | idle
  | header (got : Bytes)
  | payload (purpose : UInt8) (size : Nat) (got : Bytes)
deriving DecidableEq, Repr

namespace ChunkReader

def want : ChunkReader → Nat
  | idle => 0
  | header got => chunkHeaderSize - got.length
  | payload _ size got => size - got.length

def add (b : Bytes) : ChunkReader → ChunkReader
  | idle => idle
  | header got => header (got ++ b)
  | payload purpose size got => payload purpose size (got ++ b)

/-- The way on, once `readFullContext` has read everything, and the chunk that is returned. A size
above the limit is an error. -/
def next : ChunkReader → ChunkReader × Option Chunk
  | idle => (idle, none)
  | header got =>
    if got.length < chunkHeaderSize then (header got, none)
    else
      let n := beNat got.tail
      if maxChunkSize < n then (idle, none)
      else if n = 0 then (idle, some ⟨got.headD 0, []⟩)
      else (payload (got.headD 0) n [], none)
  | payload purpose size got =>
    if got.length < size then (payload purpose size got, none) else (idle, some ⟨purpose, got⟩)

end ChunkReader

/-! ## The ring -/

structure State where
  ring : Bytes := []
  writer : ChunkWriter := .idle
  reader : ChunkReader := .idle
  /-- The chunks that were passed to `WriteChunk`. -/
  written : List Chunk := []
  /-- The chunks that `ReadChunk` has returned. -/
  returned : List Chunk := []
deriving DecidableEq, Repr

inductive Event
  | writeChunk (c : Chunk)
  /-- `WriteContext` writes some bytes more, as far as the ring has room. -/
  | wrote (n : Nat)
  /-- `WriteContext` writes some bytes more and returns with its context's error. -/
  | writeCut (n : Nat)
  | readChunk
  /-- `ReadContext` reads some bytes more, as far as there are any. -/
  | read (n : Nat)
  /-- `ReadContext` reads some bytes more and returns with its context's error. -/
  | readCut (n : Nat)
deriving DecidableEq, Repr

namespace State

def push (n : Nat) (s : State) : State :=
  let moved := s.writer.buffer.take (min n (capacity - s.ring.length))
  { s with ring := s.ring ++ moved, writer := s.writer.add moved.length }

def fetch (n : Nat) (s : State) : State :=
  let moved := s.ring.take (min n s.reader.want)
  { s with ring := s.ring.drop moved.length, reader := s.reader.add moved }

/-- A side has one call at a time, and goes on with the next whatever became of the last. -/
def step (s : State) : Event → State
  | .writeChunk c =>
    match s.writer with
    | .idle =>
      { s with written := s.written ++ [c],
               writer := if maxChunkSize < c.data.length then .idle else .header c 0 }
    | _ => s
  | .wrote n => { s.push n with writer := (s.push n).writer.next }
  | .writeCut n => { s.push n with writer := .idle }
  | .readChunk =>
    match s.reader with
    | .idle => { s with reader := .header [] }
    | _ => s
  | .read n =>
    { s.fetch n with reader := (s.fetch n).reader.next.1,
                     returned := s.returned ++ (s.fetch n).reader.next.2.toList }
  | .readCut n => { s.fetch n with reader := .idle }

end State

def run (events : List Event) : State := events.foldl State.step {}

/-! ## Frames -/

namespace ChunkWriter

def current : ChunkWriter → Option Chunk
  | idle => none
  | header c _ => c
  | payload c _ => c

def pending : ChunkWriter → Bytes
  | idle => []
  | header c sent => c.header.drop sent ++ c.data
  | payload c sent => c.data.drop sent

/-- All of the frame is written, or nothing of it. -/
def Untorn (w : ChunkWriter) : Prop :=
  w.pending = [] ∨ w.pending = w.current.toList.flatMap Chunk.frame

theorem append_pending_add {w : ChunkWriter} {moved : Bytes} (h : moved <+: w.buffer) :
    moved ++ (w.add moved.length).pending = w.pending := by
  cases w with
  | idle => rw [List.prefix_nil.mp h]; rfl
  | header c sent =>
    obtain ⟨t, ht⟩ := h
    have hdrop : c.header.drop (sent + moved.length) = t := by
      rw [← List.drop_drop, ← show moved ++ t = c.header.drop sent from ht, List.drop_left]
    rw [add, pending, pending, hdrop, ← List.append_assoc, ht]
    rfl
  | payload c sent =>
    obtain ⟨t, ht⟩ := h
    rw [add, pending, pending, ← List.drop_drop, ← show moved ++ t = c.data.drop sent from ht,
      List.drop_left]

theorem current_add (w : ChunkWriter) (n : Nat) : (w.add n).current = w.current := by
    cases w <;> rfl

theorem next_cases (w : ChunkWriter) :
    (w.next = idle ∧ w.pending = []) ∨
      (w.next.current = w.current ∧ w.next.pending = w.pending ∧ w.pending ≠ []) := by
  cases w with
  | idle => exact .inl ⟨rfl, rfl⟩
  | header c sent =>
    rw [next]
    split_ifs with hsent hdata
    · refine .inr ⟨rfl, rfl, fun h => ?_⟩
      have hdrop := (List.append_eq_nil_iff.mp h).1
      rw [List.drop_eq_nil_iff, Chunk.length_header] at hdrop
      omega
    · refine .inl ⟨rfl, ?_⟩
      rw [pending, List.drop_of_length_le (by rw [Chunk.length_header]; omega), hdata]
      rfl
    · have hpending : (header c sent).pending = c.data := by
        rw [pending, List.drop_of_length_le (by rw [Chunk.length_header]; omega), List.nil_append]
      exact .inr ⟨rfl, hpending.symm, hpending ▸ hdata⟩
  | payload c sent =>
    rw [next]
    split_ifs with hsent
    · refine .inr ⟨rfl, rfl, fun h => ?_⟩
      rw [pending, List.drop_eq_nil_iff] at h
      omega
    · exact .inl ⟨rfl, List.drop_of_length_le (by omega)⟩

end ChunkWriter

namespace ChunkReader

def consumed : ChunkReader → Bytes
  | idle => []
  | header got => got
  | payload purpose size got => purpose :: beBytes 4 size ++ got

/-- The call has read a whole frame, or nothing. -/
def Untorn : ChunkReader → Prop
  | idle => True
  | header got => got = [] ∨ got.length = chunkHeaderSize ∧ beNat got.tail = 0
  | payload _ size got => got.length = size

def Fits : ChunkReader → Prop
  | idle => True
  | header got => got.length ≤ chunkHeaderSize
  | payload _ size got => got.length ≤ size ∧ size ≤ maxChunkSize

def Genuine (r : ChunkReader) : Prop :=
  ∀ got, r = header got → got.length = chunkHeaderSize →
    ∃ c : Chunk, c.data.length ≤ maxChunkSize ∧ got = c.header

variable {r : ChunkReader}

theorem consumed_add {b : Bytes} (h : b.length ≤ r.want) :
    (r.add b).consumed = r.consumed ++ b := by
  cases r with
  | idle => rw [List.eq_nil_of_length_eq_zero (Nat.le_zero.mp h)]; rfl
  | header got => rfl
  | payload purpose size got => exact (List.append_assoc ..).symm

theorem Fits.add (hr : r.Fits) {b : Bytes} (h : b.length ≤ r.want) : (r.add b).Fits := by
  cases r with
  | idle => trivial
  | header got =>
    have hgot : got.length ≤ chunkHeaderSize := hr
    rw [want] at h
    rw [ChunkReader.add, Fits, List.length_append]
    omega
  | payload purpose size got =>
    obtain ⟨hgot, hsize⟩ := hr
    rw [want] at h
    refine ⟨?_, hsize⟩
    rw [List.length_append]
    omega

theorem consumed_header_of_empty {c : Chunk} (h : c.data.length = 0) :
    (header c.header).consumed = c.frame := by
  rw [Chunk.frame, List.eq_nil_of_length_eq_zero h, List.append_nil]
  rfl

theorem next_cases (hr : r.Fits) (hgenuine : r.Genuine) :
    (∃ r' : ChunkReader, r.next = (r', none) ∧ r'.Fits ∧ r'.consumed = r.consumed) ∨
      ∃ c : Chunk, r.next = (idle, some c) ∧ c.data.length ≤ maxChunkSize ∧
        r.consumed = c.frame := by
  cases r with
  | idle => exact .inl ⟨idle, rfl, trivial, rfl⟩
  | header got =>
    by_cases hlen : got.length < chunkHeaderSize
    · exact .inl ⟨header got, if_pos hlen, hr, rfl⟩
    obtain ⟨c, hc, rfl⟩ := hgenuine got rfl (le_antisymm hr (not_lt.mp hlen))
    have hnext : (header c.header).next =
        if c.data.length = 0 then (idle, some ⟨c.purpose, []⟩)
        else (payload c.purpose c.data.length [], none) := by
      rw [next, if_neg hlen]
      dsimp only
      rw [Chunk.beNat_tail_header hc, if_neg (not_lt.mpr hc)]
      rfl
    split_ifs at hnext with hempty
    · refine .inr ⟨c, ?_, hc, consumed_header_of_empty hempty⟩
      rw [hnext, ← List.eq_nil_of_length_eq_zero hempty]
    · exact .inl ⟨_, hnext, ⟨Nat.zero_le _, hc⟩, List.append_nil _⟩
  | payload purpose size got =>
    obtain ⟨hgot, hsize⟩ := hr
    by_cases hlen : got.length < size
    · exact .inl ⟨payload purpose size got, if_pos hlen, ⟨hgot, hsize⟩, rfl⟩
    obtain rfl : got.length = size := le_antisymm hgot (not_lt.mp hlen)
    exact .inr ⟨⟨purpose, got⟩, if_neg hlen, hsize, rfl⟩

theorem Untorn.consumed (h : r.Untorn) (hr : r.Fits) (hgenuine : r.Genuine) :
    r.consumed = [] ∨ ∃ c : Chunk, c.data.length ≤ maxChunkSize ∧ r.consumed = c.frame := by
  cases r with
  | idle => exact .inl rfl
  | header got =>
    rcases h with rfl | ⟨hlen, hempty⟩
    · exact .inl rfl
    · obtain ⟨c, hc, rfl⟩ := hgenuine got rfl hlen
      rw [Chunk.beNat_tail_header hc] at hempty
      exact .inr ⟨c, hc, consumed_header_of_empty hempty⟩
  | payload purpose size got =>
    obtain rfl : got.length = size := h
    exact .inr ⟨⟨purpose, got⟩, hr.2, rfl⟩

end ChunkReader

/-! ## In step -/

/-- The two sides are in step, with the chunks of `queue` and of the call that writes on the way. -/
structure Sync (s : State) (queue : List Chunk) : Prop where
  stream : s.reader.consumed ++ (s.ring ++ s.writer.pending) =
    (queue ++ s.writer.current.toList).flatMap Chunk.frame
  chunks : (s.returned ++ (queue ++ s.writer.current.toList)).Sublist s.written
  sizes : ∀ c ∈ queue ++ s.writer.current.toList, c.data.length ≤ maxChunkSize
  fits : s.reader.Fits

def Busy (s : State) : Prop := s.writer = .idle ∨ s.writer.pending ≠ []

theorem Sync.of_idle {s : State} {queue : List Chunk}
    (hstream : s.reader.consumed ++ s.ring = queue.flatMap Chunk.frame)
    (hchunks : (s.returned ++ queue).Sublist s.written)
    (hsizes : ∀ c ∈ queue, c.data.length ≤ maxChunkSize)
    (hfits : s.reader.Fits) : Sync { s with writer := .idle } queue := by
  have hqueue : queue ++ ChunkWriter.idle.current.toList = queue := List.append_nil queue
  have hring : s.ring ++ ChunkWriter.idle.pending = s.ring := List.append_nil s.ring
  refine ⟨?_, ?_, ?_, hfits⟩ <;> dsimp only
  · rwa [hqueue, hring]
  · rwa [hqueue]
  · rwa [hqueue]

namespace Sync

variable {s : State} {queue : List Chunk} (h : Sync s queue)
include h

theorem push (n : Nat) : Sync (s.push n) queue := by
  have hmove :=
    ChunkWriter.append_pending_add
      (List.take_prefix (min n (capacity - s.ring.length)) s.writer.buffer)
  refine ⟨?_, ?_, ?_, h.fits⟩
  · dsimp only [State.push]
    rw [ChunkWriter.current_add, List.append_assoc, hmove]
    exact h.stream
  · dsimp only [State.push]
    rw [ChunkWriter.current_add]
    exact h.chunks
  · dsimp only [State.push]
    rw [ChunkWriter.current_add]
    exact h.sizes

theorem fetch (n : Nat) : Sync (s.fetch n) queue := by
  have hwant : (s.ring.take (min n s.reader.want)).length ≤ s.reader.want := by
    rw [List.length_take]
    omega
  refine ⟨?_, h.chunks, h.sizes, h.fits.add hwant⟩
  have hring :
      s.ring.take (min n s.reader.want) ++ s.ring.drop (s.ring.take (min n s.reader.want)).length =
      s.ring := by
    obtain ⟨t, ht⟩ := List.take_prefix (min n s.reader.want) s.ring
    conv => enter [1, 2, 2]; rw [← ht]
    rw [List.drop_left, ht]
  dsimp only [State.fetch]
  rw [ChunkReader.consumed_add hwant, ← h.stream, List.append_assoc,
    ← List.append_assoc (List.take _ _), hring]

theorem head (hbusy : Busy s) {c : Chunk} (hc : c.data.length ≤ maxChunkSize)
    (hconsumed : s.reader.consumed = c.frame) :
    ∃ rest, queue = c :: rest ∧
      s.ring ++ s.writer.pending = (rest ++ s.writer.current.toList).flatMap Chunk.frame := by
  have hstream := h.stream
  rw [hconsumed] at hstream
  cases queue with
  | cons d rest =>
    have hd := h.sizes d List.mem_cons_self
    obtain ⟨rfl, hrest⟩ := Chunk.frame_append_inj hc hd hstream
    exact ⟨rest, rfl, hrest⟩
  | nil =>
    -- the call that writes would have written everything
    exfalso
    have hsizes := h.sizes
    rw [List.nil_append] at hstream hsizes
    rcases hcurrent : s.writer.current with _ | d <;> rw [hcurrent] at hstream hsizes
    · exact c.frame_ne_nil (List.append_eq_nil_iff.mp hstream).1
    · rw [Option.toList_some, List.flatMap_singleton, ← List.append_nil d.frame] at hstream
      obtain ⟨-, hnil⟩ := Chunk.frame_append_inj hc (hsizes d (List.mem_singleton_self d)) hstream
      rcases hbusy with hidle | hpending
      · rw [hidle] at hcurrent
        cases hcurrent
      · exact hpending (List.append_eq_nil_iff.mp hnil).2

theorem genuine : s.reader.Genuine := by
  intro got hreader hlen
  have hstream := h.stream
  have hsizes := h.sizes
  rw [hreader, ChunkReader.consumed] at hstream
  cases hqueue : queue ++ s.writer.current.toList with
  | nil =>
    rw [hqueue, List.flatMap_nil, List.append_eq_nil_iff] at hstream
    rw [hstream.1] at hlen
    cases hlen
  | cons c rest =>
    rw [hqueue] at hstream hsizes
    refine ⟨c, hsizes c List.mem_cons_self, ?_⟩
    rw [List.flatMap_cons, Chunk.frame, List.append_assoc] at hstream
    exact (List.append_inj hstream (by rw [hlen, Chunk.length_header])).1

theorem consume (hbusy : Busy s) {c : Chunk} (hc : c.data.length ≤ maxChunkSize)
    (hconsumed : s.reader.consumed = c.frame) :
    ∃ rest, Sync { s with reader := .idle } rest ∧
      Sync { s with reader := .idle, returned := s.returned ++ [c] } rest := by
  obtain ⟨rest, rfl, hstream⟩ := h.head hbusy hc hconsumed
  have hchunks := h.chunks
  have hsizes := h.sizes
  refine ⟨rest, ⟨hstream, ?_, fun d hd => hsizes d (List.mem_cons_of_mem c hd), trivial⟩,
    ⟨hstream, ?_, fun d hd => hsizes d (List.mem_cons_of_mem c hd), trivial⟩⟩
  · exact ((List.sublist_cons_self c _).append_left s.returned).trans hchunks
  · dsimp only
    rwa [List.append_assoc]

theorem withReader {r : ChunkReader} (hfits : r.Fits) (hconsumed : r.consumed = s.reader.consumed) :
    Sync { s with reader := r } queue := by
  refine ⟨?_, h.chunks, h.sizes, hfits⟩
  dsimp only
  rw [hconsumed]
  exact h.stream

theorem next (hbusy : Busy s) :
    ∃ rest, Sync { s with reader := s.reader.next.1, returned := s.returned ++
      s.reader.next.2.toList } rest := by
  rcases ChunkReader.next_cases h.fits h.genuine with
    ⟨r, hnext, hfits, hconsumed⟩ | ⟨c, hnext, hc, hconsumed⟩
  · rw [hnext, Option.toList_none, List.append_nil]
    exact ⟨queue, h.withReader hfits hconsumed⟩
  · obtain ⟨rest, -, hsync⟩ := h.consume hbusy hc hconsumed
    rw [hnext]
    exact ⟨rest, hsync⟩

theorem readCut (hbusy : Busy s) (huntorn : s.reader.Untorn) :
    ∃ rest, Sync { s with reader := .idle } rest := by
  rcases huntorn.consumed h.fits h.genuine with hconsumed | ⟨c, hc, hconsumed⟩
  · exact ⟨queue, h.withReader trivial hconsumed.symm⟩
  · obtain ⟨rest, hsync, -⟩ := h.consume hbusy hc hconsumed
    exact ⟨rest, hsync⟩

theorem finish (hpending : s.writer.pending = []) :
    Sync { s with writer := .idle } (queue ++ s.writer.current.toList) := by
  have hstream := h.stream
  rw [hpending, List.append_nil] at hstream
  exact .of_idle hstream h.chunks h.sizes h.fits

theorem writeCut (huntorn : s.writer.Untorn) : ∃ rest, Sync { s with writer := .idle } rest := by
  rcases huntorn with hpending | hpending
  · exact ⟨_, h.finish hpending⟩
  · -- nothing is in the ring of the frame that is given up
    have hstream := h.stream
    rw [hpending, List.flatMap_append, ← List.append_assoc] at hstream
    refine ⟨queue, .of_idle (List.append_cancel_right hstream) ?_ (fun c hc => ?_) h.fits⟩
    · exact ((List.sublist_append_left queue _).append_left s.returned).trans h.chunks
    · exact h.sizes c (List.mem_append_left _ hc)

theorem settle : ∃ rest, Sync { s with writer := s.writer.next } rest ∧
    Busy { s with writer := s.writer.next } := by
  rcases s.writer.next_cases with ⟨hnext, hpending⟩ | ⟨hcurrent, hpending, hne⟩
  · rw [hnext]
    exact ⟨_, h.finish hpending, .inl rfl⟩
  · refine ⟨queue, ⟨?_, ?_, ?_, h.fits⟩, .inr (hpending ▸ hne)⟩ <;> dsimp only
    · rw [hcurrent, hpending]
      exact h.stream
    · rw [hcurrent]
      exact h.chunks
    · rw [hcurrent]
      exact h.sizes

theorem writeChunk (hidle : s.writer = .idle) (c : Chunk) :
    Sync { s with written := s.written ++ [c],
                  writer :=
  if maxChunkSize < c.data.length then .idle else .header c 0 } queue := by
  obtain ⟨hstream, hchunks, hsizes, hfits⟩ := h
  rw [hidle, ChunkWriter.current, Option.toList_none, List.append_nil] at hstream hchunks hsizes
  rw [ChunkWriter.pending, List.append_nil] at hstream
  split_ifs with hlarge
  · exact .of_idle (s := { s with written := s.written ++ [c] }) hstream
      (hchunks.trans (List.sublist_append_left ..)) hsizes hfits
  · refine ⟨?_, ?_, ?_, hfits⟩ <;> dsimp only [ChunkWriter.current, ChunkWriter.pending]
    · rw [← List.append_assoc,
        hstream, List.flatMap_append, Option.toList_some, List.flatMap_singleton]
      rfl
    · rw [← List.append_assoc]
      exact hchunks.append (List.Sublist.refl [c])
    · intro d hd
      rcases List.mem_append.mp hd with hd | hd
      · exact hsizes d hd
      · cases List.mem_singleton.mp hd
        exact not_lt.mp hlarge

end Sync

def Inv (s : State) : Prop := Busy s ∧ ∃ queue, Sync s queue

def Untorn (s : State) : Event → Prop
  | .writeCut n => (s.push n).writer.Untorn
  | .readCut n => (s.fetch n).reader.Untorn
  | _ => True

theorem Inv.step {s : State} (h : Inv s) {e : Event} (he : Untorn s e) : Inv (s.step e) := by
  obtain ⟨hbusy, queue, hsync⟩ := h
  cases e with
  | writeChunk c =>
    by_cases hidle : s.writer = .idle
    · have hstep : s.step (.writeChunk c) = { s with
          written := s.written ++ [c],
          writer := if maxChunkSize < c.data.length then .idle else .header c 0 } := by
        rw [State.step, hidle]
      rw [hstep]
      refine ⟨?_, queue, hsync.writeChunk hidle c⟩
      unfold Busy
      split_ifs
      · exact .inl rfl
      · exact .inr c.frame_ne_nil
    · have hstep : s.step (.writeChunk c) = s := by
        rw [State.step]
        split
        · exact absurd ‹_› hidle
        · rfl
      rw [hstep]
      exact ⟨hbusy, queue, hsync⟩
  | wrote n =>
    obtain ⟨rest, hrest, hbusy'⟩ := (hsync.push n).settle
    exact ⟨hbusy', rest, hrest⟩
  | writeCut n => exact ⟨.inl rfl, (hsync.push n).writeCut he⟩
  | readChunk =>
    rw [State.step]
    split
    · rename_i hidle
      exact ⟨hbusy, queue, hsync.withReader (Nat.zero_le _) (by rw [hidle]; rfl)⟩
    · exact ⟨hbusy, queue, hsync⟩
  | read n => exact ⟨hbusy, (hsync.fetch n).next hbusy⟩
  | readCut n => exact ⟨hbusy, (hsync.fetch n).readCut hbusy he⟩

theorem inv_run {events : List Event}
    (h : ∀ i (hi : i < events.length), Untorn (run (events.take i)) events[i]) {i : Nat}
    (hi : i ≤ events.length) :
    Inv (run (events.take i)) := by
  induction i with
  | zero => exact ⟨.inl rfl, [], rfl, List.Sublist.refl _, nofun, trivial⟩
  | succ i ih =>
    have hstep : run (events.take (i + 1)) = (run (events.take i)).step events[i] :=
      List.foldl_take_succ _ _ hi
    rw [hstep]
    exact (ih (by omega)).step (h i hi)

/-- **Chunks come out whole.** In every run in which each call that is cut off has transferred its
whole frame or nothing of it, the chunks that `ReadChunk` has returned are, at every moment, some of
those that were passed to `WriteChunk`, in their order. -/
theorem chunks_intact (events : List Event)
    (h : ∀ i (hi : i < events.length), Untorn (run (events.take i)) events[i]) :
    ∀ i ≤ events.length, (run (events.take i)).returned.Sublist (run (events.take i)).written := by
  intro i hi
  obtain ⟨-, queue, hsync⟩ := inv_run h hi
  exact (List.sublist_append_left _ _).trans hsync.chunks

instance (w : ChunkWriter) : Decidable w.Untorn := inferInstanceAs (Decidable (_ ∨ _))

instance : (r : ChunkReader) → Decidable r.Untorn
  | .idle => inferInstanceAs (Decidable True)
  | .header _ => inferInstanceAs (Decidable (_ ∨ _ ∧ _))
  | .payload .. => inferInstanceAs (Decidable (_ = _))

instance (s : State) : (e : Event) → Decidable (Untorn s e)
  | .writeCut n => inferInstanceAs (Decidable (s.push n).writer.Untorn)
  | .readCut n => inferInstanceAs (Decidable (s.fetch n).reader.Untorn)
  | .writeChunk _ => inferInstanceAs (Decidable True)
  | .wrote _ => inferInstanceAs (Decidable True)
  | .readChunk => inferInstanceAs (Decidable True)
  | .read _ => inferInstanceAs (Decidable True)

/-- A chunk is given up before its first byte, the next one arrives in two pieces. -/
def patientRun : List Event :=
  [.writeChunk ⟨1, ascii "ab"⟩, .writeCut 0, .writeChunk ⟨2, ascii "c"⟩, .wrote 5,
    .readChunk, .readCut 0, .readChunk, .read 5, .wrote 1, .read 1]

theorem chunks_intact_patient :
    (run patientRun).returned = [⟨2, ascii "c"⟩] ∧
      (run patientRun).returned.Sublist (run patientRun).written :=
  ⟨by decide +kernel, chunks_intact patientRun (by decide +kernel) 10 le_rfl⟩

/-- A chunk whose payload is not written any more, and another one. -/
def tornWrite : List Event :=
  [.writeChunk ⟨1, ascii "ab"⟩, .wrote 5, .writeCut 0, .writeChunk ⟨2, ascii "c"⟩,
    .wrote 5, .wrote 1, .readChunk, .read 5, .read 2]

/-- A chunk whose header is read by one call and whose payload by the next. -/
def tornRead : List Event :=
  [.writeChunk ⟨1, [9, 0, 0, 0, 1, 7]⟩, .wrote 5, .readChunk, .read 5, .readCut 0, .wrote 6,
   .readChunk, .read 5, .read 1]

/-- What comes out was never written. -/
theorem chunks_torn :
    ((run tornWrite).returned = [⟨1, [2, 0]⟩] ∧
      ¬(run tornWrite).returned.Sublist (run tornWrite).written) ∧
    (run tornRead).returned = [⟨9, [7]⟩] ∧
      ¬(run tornRead).returned.Sublist (run tornRead).written := by
  decide +kernel

end KvRaft.Chandata
