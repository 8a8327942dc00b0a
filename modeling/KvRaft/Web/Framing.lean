import KvRaft.Web.Commit
import KvRaft.Web.Stream
import KvRaft.Web.Wire

/-! # How a stream is split into reads

Requests that a leader writes back to back, and what the learner takes for requests, for every split
of the bytes into reads. -/

namespace KvRaft.Web

open Bytes Msgpack Reader EStateM

/-! ## Reads -/

/-- The chunks that a stream gives until it has given `need` bytes, the last with `n` bytes more. -/
inductive Fills : Nat → Stream → Nat → Stream → Prop
  | last {need : Nat} {st : Stream} (hpos : 0 < need) (h : need ≤ (st.read 4096).1.length) :
      Fills need st ((st.read 4096).1.length - need) (st.read 4096).2
  | more {need n : Nat} {st st' : Stream} (hpos : 0 < (st.read 4096).1.length)
      (h : (st.read 4096).1.length < need)
      (hrest : Fills (need - (st.read 4096).1.length) (st.read 4096).2 n st') : Fills need st n st'

theorem run_read (room : Nat) (st : Stream) :
    read room st = .ok (st.read room).1 (st.read room).2 := rfl

theorem read_append (st : Stream) (room : Nat) :
    (st.read room).1 ++ (st.read room).2.incoming = st.incoming := List.take_append_drop ..

theorem length_read_le (st : Stream) : (st.read 4096).1.length ≤ 4096 :=
  (List.length_take_le _ _).trans (min_le_left ..)

theorem length_read_pos {st : Stream} (h : 0 < st.incoming.length) :
    0 < (st.read 4096).1.length := by
  have hn : 0 < min 4096 (max 1 (st.sizes.headD 4096)) := by omega
  show 0 < (st.incoming.take _).length
  rw [List.length_take]
  omega

theorem exists_fills {need : Nat} (hpos : 0 < need) {st : Stream} (h : need ≤ st.incoming.length) :
    ∃ n st', n ≤ 4095 ∧ Fills need st n st' := by
  induction need using Nat.strong_induction_on generalizing st with
  | _ need ih =>
    have hle := length_read_le st
    have hread : 0 < (st.read 4096).1.length := length_read_pos (by omega)
    by_cases hlast : need ≤ (st.read 4096).1.length
    · exact ⟨_, _, by omega, .last hpos hlast⟩
    · have hsum := congrArg List.length (read_append st 4096)
      rw [List.length_append] at hsum
      have hrest : need - (st.read 4096).1.length ≤ (st.read 4096).2.incoming.length := by omega
      obtain ⟨n, st', hn, hfill⟩ := ih _ (by omega) (by omega) hrest
      exact ⟨n, st', hn, .more hread (by omega) hfill⟩

theorem fills_singly (k : Nat) {m : Nat} (hm : 0 < m) (hm' : m ≤ 4096) (incoming : Bytes)
    (sizes : List Nat) (h : k + m ≤ incoming.length) :
    Fills (k + 1) ⟨incoming, List.replicate k 1 ++ m :: sizes⟩ (m - 1) ⟨incoming.drop (k + m),
      sizes⟩ := by
  induction k generalizing incoming with
  | zero =>
    have hread :
        Stream.read 4096 ⟨incoming, m :: sizes⟩ = (incoming.take m, ⟨incoming.drop m, sizes⟩) := by
      have hn : min 4096 (max 1 m) = m := by omega
      simp [Stream.read, hn]
    have hlast : Fills 1 ⟨incoming, m :: sizes⟩ _ _ :=
      .last Nat.one_pos (by rw [hread, List.length_take]; omega)
    rw [hread, List.length_take_of_le (by omega)] at hlast
    rw [Nat.zero_add m]
    exact hlast
  | succ k ih =>
    have hread : Stream.read 4096 ⟨incoming, List.replicate (k + 1) 1 ++ m :: sizes⟩ =
        (incoming.take 1, ⟨incoming.drop 1, List.replicate k 1 ++ m :: sizes⟩) := rfl
    have hrest := ih (incoming.drop 1) (by rw [List.length_drop]; omega)
    rw [List.drop_drop, show 1 + (k + m) = k + 1 + m by omega] at hrest
    refine .more ?_ ?_ ?_ <;> rw [hread]
    · rw [List.length_take_of_le (by omega)]
      omega
    · rw [List.length_take_of_le (by omega)]
      omega
    · rw [List.length_take_of_le (by omega)]
      exact hrest

/-! ## Decoding a request -/

section

variable {α : Type} {decode : Reader α} {w : Bytes} {a : α}

theorem decodeRounds_ok {buf : Bytes} {q : Nat} (h : decode buf 0 = .ok (a, q)) (rounds : Nat)
    (st : Stream) :
    decodeRounds decode (rounds + 1) buf st = .ok (a, buf.drop q) st := by
  rw [decodeRounds, h]
  rfl

theorem decodeRounds_eof {buf : Bytes} (h : decode buf 0 = .error (.err .unexpectedEof))
    (rounds : Nat) {st : Stream} (hne : 0 < (st.read 4096).1.length) :
    decodeRounds decode (rounds + 1) buf st =
      decodeRounds decode rounds (buf ++ (st.read 4096).1) (st.read 4096).2 := by
  rw [decodeRounds, h]
  exact (run_bind_of_ok (run_read 4096 st) _).trans (by rw [if_neg (List.ne_nil_of_length_pos hne)])

/-- The rounds of `decode_one` follow the reads: the message ends the loop as soon as
it is complete. -/
theorem decodeRounds_of_fills (hs : Streams decode) (hg : Gives decode w a) (hw : w.length < 2 ^ 32)
    {need n : Nat} {st st' : Stream} (hfill : Fills need st n st') :
    ∀ {buf rest : Bytes} {rounds : Nat},
      buf ++ st.incoming = w ++ rest → buf.length + need = w.length → st.incoming.length < rounds →
      decodeRounds decode rounds buf st = .ok (a, rest.take n) ⟨rest.drop n, st'.sizes⟩ := by
  induction hfill with
  | @last need st hpos h =>
    intro buf rest rounds hbuf hneed hrounds
    have hlen := congrArg List.length (read_append st 4096)
    rw [List.length_append] at hlen
    obtain ⟨rounds, rfl⟩ : ∃ r, rounds = r + 2 := ⟨rounds - 2, by omega⟩
    rw [decodeRounds_eof (hs.eof_of_short hg hw hbuf (by omega)) _ (by omega)]
    have hbuf' : buf ++ (st.read 4096).1 ++ (st.read 4096).2.incoming = w ++ rest := by
      rw [List.append_assoc, read_append, hbuf]
    generalize hb : buf ++ (st.read 4096).1 = buf' at hbuf'
    have hblen : buf'.length = w.length + ((st.read 4096).1.length - need) := by
      rw [← hb, List.length_append]
      omega
    have htake : buf' = w ++ rest.take ((st.read 4096).1.length - need) := by
      have h' := congrArg (List.take buf'.length) hbuf'
      rw [List.take_left, hblen, List.take_length_add_append] at h'
      exact h'
    have hdrop : (st.read 4096).2.incoming = rest.drop ((st.read 4096).1.length - need) := by
      have h' := congrArg (List.drop buf'.length) hbuf'
      rw [List.drop_left, hblen, List.drop_length_add_append] at h'
      exact h'
    have hdec : decode buf' 0 = .ok (a, w.length) := by
      rw [htake]
      exact run_of_gives hg [] _ hw
    rw [decodeRounds_ok hdec, ← hdrop, htake, List.drop_left]
  | @more need n st st' hpos h hrest ih =>
    intro buf rest rounds hbuf hneed hrounds
    have hlen := congrArg List.length (read_append st 4096)
    rw [List.length_append] at hlen
    obtain ⟨rounds, rfl⟩ : ∃ r, rounds = r + 1 := ⟨rounds - 1, by omega⟩
    rw [decodeRounds_eof (hs.eof_of_short hg hw hbuf (by omega)) _ hpos]
    exact ih (by rw [List.append_assoc, read_append, hbuf])
      (by rw [List.length_append]; omega) (by omega)

theorem decodeOne_of_fills (hs : Streams decode) (hg : Gives decode w a) (hw : w.length < 2 ^ 32)
    {n : Nat} {st st' : Stream} {rest : Bytes} (hin : st.incoming = w ++ rest)
    (hfill : Fills w.length st n st') :
    decodeOne decode st = .ok (a, rest.take n) ⟨rest.drop n, st'.sizes⟩ :=
  decodeRounds_of_fills hs hg hw hfill (by rw [List.nil_append, hin]) (Nat.zero_add _)
    (Nat.lt_succ_self _)

theorem decodeOne_of_limit_le (hs : Streams decode) (hg : Gives decode w a) (hw : 2 ^ 32 ≤ w.length)
    {st : Stream} {rest : Bytes} (hin : st.incoming = w ++ rest) :
    ∃ e st', decodeOne decode st = .error e st' := by
  have hrounds : ∀ rounds (buf : Bytes) (st : Stream), buf ++ st.incoming = w ++ rest →
      ∃ e st', decodeRounds decode rounds buf st = .error e st' := by
    intro rounds
    induction rounds with
    | zero => exact fun _ st _ => ⟨_, st, rfl⟩
    | succ rounds ih =>
      intro buf st hbuf
      obtain h | h := hs.error_of_limit_le hg (by decide) hw hbuf
      · rw [decodeRounds, h]
        dsimp only
        rw [run_bind_of_ok (run_read 4096 st)]
        split_ifs with hend
        · exact ⟨_, _, rfl⟩
        · exact ih _ _ (by rw [List.append_assoc, read_append, hbuf])
      · rw [decodeRounds, h]
        exact ⟨_, st, rfl⟩
  exact hrounds _ [] st (by rw [List.nil_append, hin])

end

/-! ## Requests as they are written -/

def Request.rpcType : Request → RpcType
  | appendEntries _ => .appendEntries
  | requestVote _ => .requestVote
  | requestPreVote _ => .requestPreVote
  | installSnapshot _ _ => .installSnapshot
  | timeoutNow _ => .timeoutNow

def Request.body : Request → Bytes
  | installSnapshot _ body => body
  | _ => []

/-- An encoding of the request, a snapshot being as long as it is announced. -/
def Request.Encodes : Request → Bytes → Prop
  | appendEntries req, w => MapForm (appendEntriesForms req) w
  | requestVote req, w => MapForm (requestVoteForms req) w
  | requestPreVote req, w => MapForm (requestPreVoteForms req) w
  | installSnapshot req body, w =>
    MapForm (installSnapshotForms req) w ∧ req.size.toInt = body.length
  | timeoutNow req, w => MapForm (timeoutNowForms req) w

structure Message where
  request : Request
  header : Bytes
  encodes : request.Encodes header

namespace Message

def bytes (m : Message) : Bytes := m.request.rpcType.toByte :: (m.header ++ m.request.body)

/-- `usize` counts the bytes of the request and those of its body. That no `Vec` holds more than
half as many is a matter of allocation, which is not modelled. -/
def Fits (m : Message) : Prop := m.header.length < 2 ^ 32 ∧ m.request.body.length < 2 ^ 32

end Message

def wire (ms : List Message) : Bytes := ms.flatMap Message.bytes

theorem fromByte_toByte (t : RpcType) : RpcType.fromByte t.toByte = some t := by cases t <;> rfl

variable {b : UInt8} {m : Message} {n : Nat} {rest : Bytes} {sizes : List Nat} {ms : List Message}

theorem fromByte_of_ge (h : 0x80 ≤ b) : RpcType.fromByte b = none := by
  have hne (c : UInt8) (hc : ¬ 0x80 ≤ c) : b ≠ c := fun hbc => hc (hbc ▸ h)
  rw [RpcType.fromByte, if_neg (hne 0 (by decide)), if_neg (hne 1 (by decide)),
    if_neg (hne 2 (by decide)), if_neg (hne 3 (by decide)), if_neg (hne 4 (by decide))]

theorem Message.header_cons (m : Message) : ∃ b rest, m.header = b :: rest ∧ 0x80 ≤ b := by
  rcases m with ⟨request, header, h⟩
  cases request with
  | appendEntries req => exact MapForm.head_ge h
  | requestVote req => exact MapForm.head_ge h
  | requestPreVote req => exact MapForm.head_ge h
  | installSnapshot req body => exact MapForm.head_ge h.1
  | timeoutNow req => exact MapForm.head_ge h

theorem Message.header_pos (m : Message) : 0 < m.header.length := by
  obtain ⟨b, rest, h, -⟩ := m.header_cons
  rw [h]
  exact Nat.succ_pos _

/-! ## Receiving a request -/

theorem run_readExact (n : Nat) (st : Stream) :
    readExact n st = .ok (st.readExact n).1 (st.readExact n).2 := rfl

theorem readExact_append (b rest : Bytes) (sizes : List Nat) :
    readExact b.length ⟨b ++ rest, sizes⟩ = .ok (some b) ⟨rest, sizes⟩ := by
  have hstep : Stream.readExact b.length ⟨b ++ rest, sizes⟩ = (some b, ⟨rest, sizes⟩) := by
    simp [Stream.readExact]
  rw [run_readExact, hstep]

theorem readBody_append {size : Int64} {body : Bytes} (hsize : size.toInt = body.length)
    (hb : body.length < 2 ^ 32) (n : Nat) (rest : Bytes) (sizes : List Nat) :
    readBody size ((body ++ rest).take n) ⟨(body ++ rest).drop n, sizes⟩ =
      .ok body ⟨rest.drop (n - body.length), sizes⟩ := by
  have hwant : size.toInt.toNat % 2 ^ 32 = body.length := by
    rw [hsize, Int.toNat_natCast, Nat.mod_eq_of_lt hb]
  rw [readBody, hwant, List.drop_append]
  rcases le_or_gt body.length n with hn | hn
  · have htake : ((body ++ rest).take n).take body.length = body := by
      rw [List.take_take, min_eq_left hn, List.take_left]
    rw [htake, if_neg (lt_irrefl _), List.drop_eq_nil_of_le hn, List.nil_append]
    rfl
  · have htake : ((body ++ rest).take n).take body.length = body.take n := by
      rw [List.take_take, min_eq_right hn.le, List.take_append_of_le_length hn.le]
    have hlen : (body.drop n).length = body.length - (body.take n).length := by
      rw [List.length_drop, List.length_take_of_le hn.le]
    rw [htake, if_pos (by rw [List.length_take_of_le hn.le]; exact hn), ← hlen,
      show n - body.length = 0 by omega]
    rw [run_bind_of_ok (readExact_append (body.drop n) (rest.drop 0) sizes)]
    show Result.ok (body.take n ++ body.drop n) _ = _
    rw [List.take_append_drop]

theorem length_readBody {size : Int64} {leftover body : Bytes} {st st' : Stream}
    (h : readBody size leftover st = .ok body st') : body.length = size.toInt.toNat % 2 ^ 32 := by
  rw [readBody] at h
  split_ifs at h with hl
  · obtain ⟨r, st₁, hr, h⟩ := ok_of_bind h
    rw [run_readExact, Stream.readExact] at hr
    split_ifs at hr with hshort
    · cases hr
      cases h
    · cases hr
      cases h
      rw [List.length_append, List.length_take_of_le (not_lt.mp hshort)]
      omega
  · cases h
    exact le_antisymm (List.length_take_le _ _) (not_lt.mp hl)

theorem receive_eq (m : Message) :
    ∃ (α : Type) (decode : Reader α) (a : α) (k : α × Bytes → Incoming Request),
      Streams decode ∧ Gives decode m.header a ∧
        receive m.request.rpcType = decodeOne decode >>= k ∧
      (m.request.body.length < 2 ^ 32 → ∀ n rest sizes,
        k (a, (m.request.body ++ rest).take n) ⟨(m.request.body ++ rest).drop n, sizes⟩ =
          .ok m.request ⟨rest.drop (n - m.request.body.length), sizes⟩) := by
  rcases m with ⟨request, header, h⟩
  cases request with
  | appendEntries req =>
    exact ⟨_, _, req, _, closed_streams.decodeAppendEntriesRequest,
      gives_decodeAppendEntriesRequest h, rfl, fun _ _ _ _ => rfl⟩
  | requestVote req =>
    exact ⟨_, _, req, _, closed_streams.decodeRequestVoteRequest,
      gives_decodeRequestVoteRequest h, rfl, fun _ _ _ _ => rfl⟩
  | requestPreVote req =>
    exact ⟨_, _, req, _, closed_streams.decodeRequestPreVoteRequest,
      gives_decodeRequestPreVoteRequest h, rfl, fun _ _ _ _ => rfl⟩
  | installSnapshot req body =>
    exact ⟨_, _, req, _, closed_streams.decodeInstallSnapshotRequest,
      gives_decodeInstallSnapshotRequest h.1, rfl,
      fun hb n rest sizes => run_bind_of_ok (readBody_append h.2 hb n rest sizes) _⟩
  | timeoutNow req =>
    exact ⟨_, _, req, _, closed_streams.decodeTimeoutNowRequest,
      gives_decodeTimeoutNowRequest h, rfl, fun _ _ _ _ => rfl⟩

/-- **A request that the reads complete is received**, and the stream stands behind whatever they
took of what follows. -/
theorem receive_of_fills (hm : m.Fits) {st st' : Stream}
    (hin : st.incoming = m.header ++ (m.request.body ++ rest))
    (hfill : Fills m.header.length st n st') :
    receive m.request.rpcType st =
      .ok m.request ⟨rest.drop (n - m.request.body.length), st'.sizes⟩ := by
  obtain ⟨α, decode, a, k, hs, hg, hreceive, hk⟩ := receive_eq m
  rw [hreceive, run_bind_of_ok (decodeOne_of_fills hs hg hm.1 hin hfill), hk hm.2]

theorem receive_of_limit_le (hm : 2 ^ 32 ≤ m.header.length) {st : Stream}
    (hin : st.incoming = m.header ++ rest) :
    ∃ e st', receive m.request.rpcType st = .error e st' := by
  obtain ⟨α, decode, a, k, hs, hg, hreceive, -⟩ := receive_eq m
  obtain ⟨e, st', he⟩ := decodeOne_of_limit_le hs hg hm hin
  exact ⟨e, st', by rw [hreceive, run_bind_of_error he]⟩

theorem length_body_of_receive {t : RpcType} {st st' : Stream} {req : Request}
    (h : receive t st = .ok req st') : req.body.length < 2 ^ 32 := by
  cases t with
  | installSnapshot =>
    obtain ⟨r, st₁, hr, h⟩ := ok_of_bind h
    obtain ⟨body, st₂, hbody, h⟩ := ok_of_bind h
    cases h
    rw [Request.body, length_readBody hbody]
    exact Nat.mod_lt _ (by decide)
  | _ =>
    obtain ⟨r, st₁, hr, h⟩ := ok_of_bind h
    cases h
    exact Nat.two_pow_pos _

/-! ## Serving requests -/

/-- What is left to be read does not grow. -/
def shrinks : Frame Stream where
  rel st st' := st'.incoming.length ≤ st.incoming.length
  refl _ := le_refl _
  trans hab hbc := hbc.trans hab

theorem shrinks_readExact (n : Nat) : shrinks.Keeps (readExact n) := by
  intro st
  show (Stream.readExact n st).2.incoming.length ≤ st.incoming.length
  rw [Stream.readExact]
  split_ifs
  · exact Nat.zero_le _
  · exact List.length_drop ▸ Nat.sub_le _ _

theorem shrinks_decodeOne {α : Type} (decode : Reader α) : shrinks.Keeps (decodeOne decode) := by
  have hread : shrinks.Keeps (read 4096) := by
    intro st
    show (st.incoming.drop _).length ≤ st.incoming.length
    exact List.length_drop ▸ Nat.sub_le _ _
  have hrounds : ∀ rounds buf, shrinks.Keeps (decodeRounds decode rounds buf) := by
    intro rounds
    induction rounds with
    | zero => exact fun _ => Frame.keeps_throw _
    | succ rounds ih =>
      intro buf
      rw [decodeRounds]
      split
      · exact Frame.keeps_pure _
      · exact hread.bind fun chunk => Frame.keeps_ite (fun _ => Frame.keeps_throw _) fun _ => ih _
      · exact Frame.keeps_throw _
      · exact Frame.keeps_throw _
  exact Frame.keeps_get_bind fun _ => hrounds _ _

theorem shrinks_receive (t : RpcType) : shrinks.Keeps (receive t) := by
  cases t with
  | installSnapshot =>
    refine (shrinks_decodeOne _).bind fun r => Frame.Keeps.bind ?_ fun _ => Frame.keeps_pure _
    refine Frame.keeps_ite (fun _ => (shrinks_readExact _).bind fun rest => ?_) fun _ =>
      Frame.keeps_pure _
    cases rest with
    | none => exact Frame.keeps_throw _
    | some rest => exact Frame.keeps_pure _
  | _ => exact (shrinks_decodeOne _).bind fun _ => Frame.keeps_pure _

/-! ## The next request -/

theorem nextRequest_nil (sizes : List Nat) : nextRequest ⟨[], sizes⟩ = .ok none ⟨[], sizes⟩ := rfl

theorem nextRequest_of_type {t : RpcType} (h : RpcType.fromByte b = some t) (rest : Bytes)
    (sizes : List Nat) :
    nextRequest ⟨b :: rest, sizes⟩ = (receive t >>= fun r => pure (some r)) ⟨rest, sizes⟩ := by
  have hread : readExact 1 ⟨b :: rest, sizes⟩ = .ok (some [b]) ⟨rest, sizes⟩ :=
    readExact_append [b] rest sizes
  refine (run_bind_of_ok hread _).trans ?_
  dsimp only [List.headD]
  rw [h]

theorem nextRequest_unknown (h : RpcType.fromByte b = none) (rest : Bytes) (sizes : List Nat) :
    nextRequest ⟨b :: rest, sizes⟩ = .error (.err (.unknownRpcType b)) ⟨rest, sizes⟩ := by
  have hread : readExact 1 ⟨b :: rest, sizes⟩ = .ok (some [b]) ⟨rest, sizes⟩ :=
    readExact_append [b] rest sizes
  refine (run_bind_of_ok hread _).trans ?_
  dsimp only [List.headD]
  rw [h]
  rfl

theorem of_nextRequest {st st' : Stream} {req : Request} (h : nextRequest st = .ok (some req) st') :
    st'.incoming.length < st.incoming.length ∧ req.body.length < 2 ^ 32 := by
  rcases st with ⟨_ | ⟨b, rest⟩, sizes⟩
  · rw [nextRequest_nil] at h
    cases h
  · rcases ht : RpcType.fromByte b with _ | t
    · rw [nextRequest_unknown ht] at h
      cases h
    · rw [nextRequest_of_type ht] at h
      obtain ⟨r, st₁, hr, h⟩ := ok_of_bind h
      cases h
      have hle := shrinks_receive t ⟨rest, sizes⟩
      rw [final, hr] at hle
      exact ⟨Nat.lt_succ_of_le hle, length_body_of_receive hr⟩

theorem nextRequest_of_fills (hm : m.Fits) {st' : Stream}
    (hfill : Fills m.header.length ⟨m.header ++ (m.request.body ++ rest), sizes⟩ n st') :
    nextRequest ⟨m.bytes ++ rest, sizes⟩ =
      .ok (some m.request) ⟨rest.drop (n - m.request.body.length), st'.sizes⟩ := by
  have hbytes :
      m.bytes ++ rest = m.request.rpcType.toByte :: (m.header ++ (m.request.body ++ rest)) := by
    simp [Message.bytes]
  rw [hbytes, nextRequest_of_type (fromByte_toByte _),
    run_bind_of_ok (receive_of_fills hm rfl hfill)]
  rfl

/-! ## Serving requests -/

section

variable {self : Learner} {st st' : Stream} {store store' : SqliteStore} {req : Request}
  {rounds : Nat}

theorem passed_of_error {e : Fault ServeError} (h : nextRequest st = .error e st') :
    (serveRounds self (rounds + 1) st store).passed = [] := by
  rw [serveRounds, h]

theorem passed_of_failed (h : nextRequest st = .ok (some req) st') {e : Fault StoreError}
    (hreq : handle self req store = .error e store') :
    (serveRounds self (rounds + 1) st store).passed = [req] := by
  rw [serveRounds, h]
  dsimp only
  rw [hreq]

theorem passed_of_answered (h : nextRequest st = .ok (some req) st') {resp : Response}
    (hreq : handle self req store = .ok resp store') :
    (serveRounds self (rounds + 1) st store).passed =
      req :: (serveRounds self rounds st' store').passed := by
  rw [serveRounds, h]
  dsimp only
  rw [hreq]
  rfl

theorem serveRounds_eq {r₁ : Nat} (h₁ : st.incoming.length < r₁) {r₂ : Nat}
    (h₂ : st.incoming.length < r₂) :
    serveRounds self r₁ st store = serveRounds self r₂ st store := by
  induction r₁ generalizing st store r₂ with
  | zero => omega
  | succ r₁ ih =>
    obtain ⟨r₂, rfl⟩ : ∃ r, r₂ = r + 1 := ⟨r₂ - 1, by omega⟩
    rw [serveRounds, serveRounds]
    rcases hnext : nextRequest st with ⟨_ | req, st'⟩ | ⟨e, st'⟩
    · rfl
    · have hlt := (of_nextRequest hnext).1
      dsimp only
      rcases handle self req store with ⟨resp, store'⟩ | ⟨e, store'⟩
      · dsimp only
        rw [ih (by omega) (by omega : st'.incoming.length < r₂)]
      · rfl
    · rfl

theorem length_body_of_passed (hreq : req ∈ (serveRounds self rounds st store).passed) :
    req.body.length < 2 ^ 32 := by
  induction rounds generalizing st store with
  | zero => cases hreq
  | succ rounds ih =>
    rcases hnext : nextRequest st with ⟨_ | r, st'⟩ | ⟨e, st'⟩
    · rw [serveRounds, hnext] at hreq
      cases hreq
    · rcases hr : handle self r store with ⟨resp, store'⟩ | ⟨e, store'⟩
      · rw [passed_of_answered hnext hr] at hreq
        obtain rfl | hreq := List.mem_cons.mp hreq
        · exact (of_nextRequest hnext).2
        · exact ih hreq
      · rw [passed_of_failed hnext hr] at hreq
        obtain rfl := List.mem_singleton.mp hreq
        exact (of_nextRequest hnext).2
    · rw [passed_of_error hnext] at hreq
      cases hreq

end

/-! ## Whole streams -/

/-- No read that completes a request goes beyond the request and its body. -/
inductive InStep : List Message → List Nat → Prop
  | nil {sizes : List Nat} : InStep [] sizes
  | cons {m : Message} {ms : List Message} {sizes : List Nat} {n : Nat} {st' : Stream}
      (hfill : Fills m.header.length ⟨m.header ++ (m.request.body ++ wire ms), sizes⟩ n st')
      (hn : n ≤ m.request.body.length) (hrest : InStep ms st'.sizes) : InStep (m :: ms) sizes

/-- The learner answers every request but the last, one after the other; an error
ends the stream. -/
def Answers (self : Learner) : List Request → SqliteStore → Prop
  | [], _ => True
  | [_], _ => True
  | r :: r' :: rs, store =>
    ∃ resp store', handle self r store = .ok resp store' ∧ Answers self (r' :: rs) store'

theorem wire_cons (m : Message) (ms : List Message) : wire (m :: ms) = m.bytes ++ wire ms :=
  List.flatMap_cons

theorem serve_cons {self : Learner} (hm : m.Fits) {st' : Stream}
    (hfill : Fills m.header.length ⟨m.header ++ (m.request.body ++ wire ms), sizes⟩ n st')
    {store store' : SqliteStore} {resp : Response}
    (hreq : handle self m.request store = .ok resp store') :
    (serveRaftStream self ⟨wire (m :: ms), sizes⟩ store).passed =
      m.request ::
        (serveRaftStream self ⟨(wire ms).drop (n - m.request.body.length),
          st'.sizes⟩ store').passed := by
  have hlen : (wire (m :: ms)).length = m.bytes.length + (wire ms).length := by
    rw [wire_cons, List.length_append]
  have hpos : 0 < m.bytes.length := Nat.succ_pos _
  rw [serveRaftStream, wire_cons, passed_of_answered (nextRequest_of_fills hm hfill) hreq,
    serveRaftStream]
  congr 2
  refine serveRounds_eq ?_ (Nat.lt_succ_self _)
  show ((wire ms).drop _).length < (m.bytes ++ wire ms).length
  rw [List.length_drop, List.length_append]
  omega

/-- While every read stays within its request, the learner is passed exactly what was written. -/
theorem served_of_inStep {self : Learner} (hfit : ∀ m ∈ ms, m.Fits)
    (hstep : InStep ms sizes) {store : SqliteStore}
    (hans : Answers self (ms.map Message.request) store) :
    (serveRaftStream self ⟨wire ms, sizes⟩ store).passed = ms.map Message.request := by
  induction hstep generalizing store with
  | nil => rfl
  | @cons m ms sizes n st' hfill hn hrest ih =>
    have hm := hfit m List.mem_cons_self
    have hms : ∀ m ∈ ms, m.Fits := fun m' h => hfit m' (List.mem_cons_of_mem m h)
    rcases hreq : handle self m.request store with ⟨resp, store'⟩ | ⟨e, store'⟩
    · rw [serve_cons hm hfill hreq, Nat.sub_eq_zero_of_le hn, List.drop_zero, List.map_cons]
      congr 1
      refine ih hms ?_
      rcases ms with _ | ⟨m', ms⟩
      · trivial
      · obtain ⟨resp', store'', hreq', hans⟩ := hans
        rw [hreq] at hreq'
        cases hreq'
        exact hans
    · -- only the last request may fail
      rcases ms with _ | ⟨m', ms⟩
      · rw [serveRaftStream, wire_cons]
        exact passed_of_failed (nextRequest_of_fills hm hfill) hreq
      · obtain ⟨resp', store'', hreq', -⟩ := hans
        rw [hreq] at hreq'
        cases hreq'

theorem Fills.add_le {need : Nat} {st st' : Stream} (h : Fills need st n st') :
    need + n ≤ st.incoming.length := by
  induction h with
  | @last need st hpos h =>
    have hsum := congrArg List.length (read_append st 4096)
    rw [List.length_append] at hsum
    omega
  | @more need n st st' hpos h hrest ih =>
    have hsum := congrArg List.length (read_append st 4096)
    rw [List.length_append] at hsum
    omega

theorem inStep_of_long (h : ∀ m ∈ ms.dropLast, 4095 ≤ m.request.body.length)
    (sizes : List Nat) : InStep ms sizes := by
  induction ms generalizing sizes with
  | nil => exact .nil
  | cons m ms ih =>
    have hlen : m.header.length ≤ (m.header ++ (m.request.body ++ wire ms)).length := by
      rw [List.length_append]
      omega
    obtain ⟨n, st', hn, hfill⟩ : ∃ n st', n ≤ 4095 ∧
        Fills m.header.length ⟨m.header ++ (m.request.body ++ wire ms), sizes⟩ n st' :=
      exists_fills m.header_pos hlen
    rcases ms with _ | ⟨m', ms⟩
    · have hle := hfill.add_le
      simp only [wire, List.flatMap_nil, List.append_nil, List.length_append] at hle
      exact .cons hfill (by omega) .nil
    · have hm := h m (by simp)
      exact .cons hfill (by omega) (ih (fun m'' hm'' => h m'' (List.mem_cons_of_mem m hm'')) _)

theorem served_short {self : Learner} {m' : Message} (hm : m.Fits)
    (hshort : m.request.body.length < 4095) (ms : List Message) (store : SqliteStore) :
    (serveRaftStream self ⟨wire (m :: m' :: ms),
      List.replicate (m.header.length - 1) 1 ++ [m.request.body.length + 2]⟩ store).passed =
        [m.request] := by
  have hpos := m.header_pos
  have hfill :=
    fills_singly (m.header.length - 1) (m := m.request.body.length + 2) (by omega) (by omega)
    (m.header ++ (m.request.body ++ wire (m' :: ms))) []
    (by simp only [wire_cons, Message.bytes, List.length_append, List.length_cons]; omega)
  rw [Nat.sub_add_cancel hpos] at hfill
  rcases hreq : handle self m.request store with ⟨resp, store'⟩ | ⟨e, store'⟩
  · obtain ⟨b, rest, hb, hge⟩ := m'.header_cons
    have hdrop : (wire (m' :: ms)).drop (m.request.body.length + 2 - 1 - m.request.body.length) =
        b :: (rest ++ (m'.request.body ++ wire ms)) := by
      rw [show m.request.body.length + 2 - 1 - m.request.body.length = 1 by
        omega, wire_cons, Message.bytes, hb]
      simp
    rw [serve_cons hm hfill hreq, hdrop, serveRaftStream,
      passed_of_error (nextRequest_unknown (fromByte_of_ge hge) _ _)]
  · rw [serveRaftStream, wire_cons]
    exact passed_of_failed (nextRequest_of_fills hm hfill) hreq

theorem fits_of_served {self : Learner}
    {store : SqliteStore} (h : (serveRaftStream self ⟨wire (m :: ms), sizes⟩ store).passed =
      (m :: ms).map Message.request) : m.Fits := by
  constructor
  · by_contra hlong
    obtain ⟨e, st', he⟩ := receive_of_limit_le (not_lt.mp hlong)
      (rfl : (⟨m.header ++ (m.request.body ++ wire ms), sizes⟩ : Stream).incoming = _)
    have hnext := nextRequest_of_type (fromByte_toByte m.request.rpcType)
      (m.header ++ (m.request.body ++ wire ms)) sizes
    rw [run_bind_of_error he] at hnext
    rw [serveRaftStream, wire_cons, Message.bytes, List.cons_append, List.append_assoc,
      passed_of_error hnext] at h
    cases h
  · refine length_body_of_passed
      (?_ : m.request ∈ (serveRaftStream self ⟨wire (m :: ms), sizes⟩ store).passed)
    rw [h]
    exact List.mem_cons_self

/-- **When the split does not matter.** For a learner with a given database and any messages written
back to back, the learner is passed exactly their requests, bodies included and in order, for every
split of the bytes into reads of at most 4096 bytes, if and only if a `usize` counts every request
and every body, the learner answers each request but the last, and each message but the last ends
with a body of at least 4095 bytes: only a read that completes a request can be too long, and it
reaches 4095 bytes beyond it at most. -/
theorem served_iff (self : Learner) (store : SqliteStore) (ms : List Message) :
    (∀ sizes, (serveRaftStream self ⟨wire ms, sizes⟩ store).passed = ms.map Message.request) ↔
      (∀ m ∈ ms, m.Fits) ∧ (∀ m ∈ ms.dropLast, 4095 ≤ m.request.body.length) ∧
        Answers self (ms.map Message.request) store := by
  refine ⟨fun h => ?_,
    fun ⟨hfit, hlong, hans⟩ sizes => served_of_inStep hfit (inStep_of_long hlong sizes) hans⟩
  induction ms generalizing store with
  | nil => exact ⟨by simp, by simp, trivial⟩
  | cons m ms ih =>
    have hm : m.Fits := fits_of_served (h [])
    -- single bytes for the first message leave the others to be split in any way
    have hfill (sizes : List Nat) := fills_singly (m.header.length - 1) Nat.one_pos (by decide)
      (m.header ++ (m.request.body ++ wire ms)) sizes
      (by rw [Nat.sub_add_cancel m.header_pos, List.length_append]; omega)
    rw [Nat.sub_add_cancel m.header_pos] at hfill
    rcases hreq : handle self m.request store with ⟨resp, store'⟩ | ⟨e, store'⟩
    · have hrest (sizes : List Nat) :
          (serveRaftStream self ⟨wire ms, sizes⟩ store').passed = ms.map Message.request := by
        have hall := h (List.replicate (m.header.length - 1) 1 ++ 1 :: sizes)
        rw [serve_cons hm (hfill sizes) hreq, Nat.sub_self, Nat.zero_sub, List.drop_zero,
          List.map_cons] at hall
        exact (List.cons.inj hall).2
      obtain ⟨hfit, hlong, hans⟩ := ih store' hrest
      refine ⟨List.forall_mem_cons.mpr ⟨hm, hfit⟩, ?_, ?_⟩
      · rcases ms with _ | ⟨m', ms⟩
        · simp
        · refine List.forall_mem_cons.mpr ⟨?_, hlong⟩
          by_contra hshort
          have hone := (served_short hm (not_le.mp hshort) ms store).symm.trans (h _)
          cases hone
      · rcases ms with _ | ⟨m', ms⟩
        · trivial
        · exact ⟨resp, store', hreq, hans⟩
    · have hone := h (List.replicate (m.header.length - 1) 1 ++ [1])
      rw [serveRaftStream, wire_cons, passed_of_failed (nextRequest_of_fills hm (hfill [])) hreq,
        List.map_cons] at hone
      obtain rfl : ms = [] := List.map_eq_nil_iff.mp (List.cons.inj hone).2.symm
      exact ⟨by simpa using hm, by simp, trivial⟩

/-- The leader's heartbeat in its first term, to a learner that has nothing yet. -/
def heartbeat : Message where
  request := .appendEntries { header := ⟨3, none, none⟩, term := 1 }
  header :=
    shortMap ((appendEntriesForms { header := ⟨3, none, none⟩, term := 1 }).map FieldForm.name)
      [[3], [0xc0], [0xc0], [1], [0xc0], [0], [0], [0], [0xc0]]
  encodes := .of_short (by decide) (by decide) <|
    .cons (SintForm.unsigned (n := 3) rfl (.fix (by decide))) <|
    .cons OptForm.nil <| .cons OptForm.nil <|
    .cons (UintForm.fix (n := 1) (by decide)) <| .cons OptForm.nil <|
    .cons (UintForm.fix (n := 0) (by decide)) <| .cons (UintForm.fix (n := 0) (by decide)) <|
    .cons (UintForm.fix (n := 0) (by decide)) <| .cons (Or.inl ⟨rfl, rfl⟩) .nil

/-- Of two heartbeats that one read finds together, the learner is passed the first only. -/
theorem pipelined_lost :
    (serveRaftStream browser ⟨wire [heartbeat, heartbeat], []⟩ {}).passed = [heartbeat.request] ∧
      (serveRaftStream browser ⟨wire [heartbeat, heartbeat], []⟩ {}).outcome = .ok () := by
  decide +kernel

end KvRaft.Web
