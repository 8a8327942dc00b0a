import KvRaft.Lib.Reach

/-! # Calls that are given up (`pkg/ipc/ipc.go`)

A call can be given up at every point, `Serve` cannot: it writes its response under the daemon's own
context. What is written into a segment stays in a ring of `capacity` bytes until somebody reads it,
so a longer response needs a reader.

As in `Ipc/Protocol`, one caller makes its calls one after the other, and a segment that was opened
can be read also after its name is gone. Reading a request ends when its writer has closed or
removed it; of a message that was not completed nothing is decoded. The handler always returns. -/

namespace KvRaft.Ipc.Abandon

/-! ## The two sides -/

/-- The size of a segment's ring. -/
def capacity : Nat := 32 * 1024

/-- The calls, numbered in the order in which they are made. -/
structure Calls where
  id : Nat → UInt16
  /-- The length of the encoded request. -/
  reqSize : Nat → Nat
  /-- The length of the encoded response. -/
  respSize : Nat → Nat

inductive Client
  /-- Between two calls. -/
  | ready
  /-- The request segment is there, the message is not yet complete. -/
  | created (call : Nat)
  /-- In `openRespWithRetry`. -/
  | waiting (call : Nat)
  /-- In `readAll` on a response segment. -/
  | reading (call response : Nat)
deriving DecidableEq

def Client.call : Client → Option Nat
  | ready => none
  | created k => some k
  | waiting k => some k
  | reading k _ => some k

inductive Server
  /-- In `openReqWithRetry`. -/
  | polling
  /-- In `readAll` on the request segment of a call. -/
  | opened (call : Nat)
  /-- The previous response is removed, the new one has no segment yet. -/
  | accepted (call : Nat)
  /-- In `sendResponse`: so many bytes are written, and so many of these read. -/
  | writing (call put got : Nat)
deriving DecidableEq

structure Response where
  no : Nat
  call : Nat
deriving DecidableEq

structure State where
  client : Client
  server : Server
  /-- The number of calls that were begun. -/
  calls : Nat
  /-- The request segments that are closed. -/
  closed : Nat → Bool
  /-- The response segment that has a name. -/
  resp : Option Response
  /-- The number of response segments that were created. -/
  responses : Nat
  /-- `lastID`, if `haveLastID`. -/
  lastID : Option UInt16

def State.init : State where
  client := .ready
  server := .polling
  calls := 0
  closed _ := false
  resp := none
  responses := 0
  lastID := none

inductive Act
  | create
  | closeReq
  | openResp
  | drain
  | finish
  | giveUp
  | openReq
  | skip
  | discard
  | accept
  | createResp
  | put
  | closeResp
deriving DecidableEq

inductive Step (c : Calls) : State → Act → State → Prop
  | create {s : State} (hclient : s.client = .ready) :
      Step c s .create { s with client := .created s.calls, calls := s.calls + 1 }
  /-- A request that does not fit into the ring waits for `Serve` to read it. -/
  | closeReq {s : State} {k : Nat} (hclient : s.client = .created k)
      (hroom : c.reqSize k ≤ capacity ∨ s.server = .opened k) :
      Step c s .closeReq { s with client := .waiting k, closed := Function.update s.closed k true }
  | openResp {s : State} {k : Nat} {r : Response} (hclient : s.client = .waiting k)
      (hresp : s.resp = some r)
      (hname : c.id r.call = c.id k) :
      Step c s .openResp { s with client := .reading k r.no }
  | drain {s : State} {k j put got n : Nat} {r : Response} (hclient : s.client = .reading k r.no)
      (hserver : s.server = .writing j put got) (hresp : s.resp = some r) (hmore : got < n)
      (hput : n ≤ put) :
      Step c s .drain { s with server := .writing j put n }
  /-- The segment is read to its end, once it is closed. -/
  | finish {s : State} {k h : Nat} (hclient : s.client = .reading k h)
      (hclosed : ∀ j put got r, s.server = .writing j put got → s.resp = some r → r.no ≠ h) :
      Step c s .finish { s with client := .ready }
  /-- The context of the call has ended. The request segment is removed. -/
  | giveUp {s : State} (hclient : s.client ≠ .ready) : Step c s .giveUp { s with client := .ready }
  | openReq {s : State} {k : Nat} (hserver : s.server = .polling) (hreq : s.client.call = some k) :
      Step c s .openReq { s with server := .opened k }
  /-- The request that was answered last, read once more. -/
  | skip {s : State} {k : Nat} (hserver : s.server = .opened k) (hclosed : s.closed k = true)
      (hlast : s.lastID = some (c.id k)) : Step c s .skip { s with server := .polling }
  /-- A request that was given up before it was complete. -/
  | discard {s : State} {k : Nat} (hserver : s.server = .opened k) (hclosed : s.closed k = false)
      (hgone : s.client ≠ .created k) : Step c s .discard { s with server := .polling }
  | accept {s : State} {k : Nat} (hserver : s.server = .opened k) (hclosed : s.closed k = true)
      (hlast : s.lastID ≠ some (c.id k)) :
        Step c s .accept { s with server := .accepted k, resp := none }
  | createResp {s : State} {k : Nat} (hserver : s.server = .accepted k) :
      Step c s .createResp { s with
        server := .writing k 0 0
        resp := some ⟨s.responses, k⟩
        responses := s.responses + 1 }
  /-- `WriteContext` goes on as long as the ring has room. -/
  | put {s : State} {k put got n : Nat} (hserver : s.server = .writing k put got) (hmore : put < n)
      (hsize : n ≤ c.respSize k) (hroom : n ≤ got + capacity) :
      Step c s .put { s with server := .writing k n got }
  | closeResp {s : State} {k put got : Nat} (hserver : s.server = .writing k put got)
      (hall : put = c.respSize k) :
      Step c s .closeResp { s with server := .polling, lastID := some (c.id k) }

/-- Whether the step is one of `Serve` or of a call that goes on. -/
def Act.advances : Act → Bool
  | create => false
  | giveUp => false
  | _ => true

def Advance (c : Calls) (s s' : State) : Prop := ∃ a, a.advances = true ∧ Step c s a s'

/-- `Serve` gets back to waiting for the next request, without the help of a further call. -/
def Returns (c : Calls) : State → Prop := Relation.Inevitable (Advance c) (·.server = .polling)

/-! ## Responses and their readers -/

/-- `Serve` is about to answer the call, and has room for so many bytes without a reader. -/
inductive Answering (c : Calls) (s : State) : Nat → Nat → Prop
  | opened {k : Nat} (hserver : s.server = .opened k) (hclosed : s.closed k = true)
      (hlast : s.lastID ≠ some (c.id k)) : Answering c s k capacity
  | accepted {k : Nat} (hserver : s.server = .accepted k) : Answering c s k capacity
  | writing {k put got : Nat} (hserver : s.server = .writing k put got) :
      Answering c s k (got + capacity)

/-- The call that is under way reads the response to the call, or will come to it. -/
inductive Attended (c : Calls) (s : State) (k : Nat) : Prop
  | created {j : Nat} (hclient : s.client = .created j) (hid : c.id j = c.id k)
      (hroom : c.reqSize j ≤ capacity)
  | waiting {j : Nat} (hclient : s.client = .waiting j) (hid : c.id j = c.id k)
  | reading {j put got : Nat} {r : Response} (hclient : s.client = .reading j r.no)
      (hserver : s.server = .writing k put got) (hresp : s.resp = some r)

/-- A response that needs a reader has one. -/
def Safe (c : Calls) (s : State) : Prop :=
  ∀ k room, Answering c s k room → room < c.respSize k → Attended c s k

/-- A call is given up only where the response that `Serve` is about to write needs no reader, and
`Serve` opens the request of a call that is already reading another response only if its own one
needs no reader. -/
def Careful (c : Calls) (s : State) : Act → Prop
  | .giveUp => ∀ k room, Answering c s k room → c.respSize k ≤ room
  | .openReq => ∀ k h, s.client = .reading k h → s.lastID ≠ some (c.id k) → c.respSize k ≤ capacity
  | _ => True

section Readers

variable {c : Calls} {s s' : State} {k room : Nat}

theorem Answering.of_eq (h : Answering c s' k room) (hserver : s'.server = s.server)
    (hclosed : s'.closed = s.closed) (hlast : s'.lastID = s.lastID) : Answering c s k room := by
  cases h with
  | opened h₁ h₂ h₃ => exact .opened (hserver ▸ h₁) (hclosed ▸ h₂) (hlast ▸ h₃)
  | accepted h => exact .accepted (hserver ▸ h)
  | writing h => exact .writing (hserver ▸ h)

theorem not_answering_of_polling (h : s.server = .polling) : ¬Answering c s k room := by
  rintro (⟨h', -, -⟩ | h' | h') <;> cases h.symm.trans h'

/-! Which call is answered, by what `Serve` is at. -/

theorem Answering.of_opened {j : Nat} (hans : Answering c s k room) (h : s.server = .opened j) :
    k = j ∧ room = capacity ∧ s.closed j = true ∧ s.lastID ≠ some (c.id j) := by
  cases hans with
  | accepted h' => cases h.symm.trans h'
  | writing h' => cases h.symm.trans h'
  | opened h' hclosed hlast =>
    cases h.symm.trans h'
    exact ⟨rfl, rfl, hclosed, hlast⟩

theorem Answering.of_accepted {j : Nat} (hans : Answering c s k room) (h : s.server = .accepted j) :
    k = j ∧ room = capacity := by
  cases hans with
  | opened h' => cases h.symm.trans h'
  | writing h' => cases h.symm.trans h'
  | accepted h' =>
    cases h.symm.trans h'
    exact ⟨rfl, rfl⟩

theorem Answering.of_writing
    {j put got : Nat} (hans : Answering c s k room) (h : s.server = .writing j put got) :
    k = j ∧ room = got + capacity := by
  cases hans with
  | opened h' => cases h.symm.trans h'
  | accepted h' => cases h.symm.trans h'
  | writing h' =>
    cases h.symm.trans h'
    exact ⟨rfl, rfl⟩

theorem not_attended_of_ready (h : s.client = .ready) : ¬Attended c s k := by
  rintro (⟨h', -, -⟩ | ⟨h', -⟩ | ⟨h', -, -⟩) <;> cases h.symm.trans h'

theorem Attended.of_client (h : Attended c s k) (hserver : ∀ put got, s.server ≠ .writing k put got)
    (hclient : s'.client = s.client) : Attended c s' k := by
  cases h with
  | created h₁ h₂ h₃ => exact .created (hclient.trans h₁) h₂ h₃
  | waiting h₁ h₂ => exact .waiting (hclient.trans h₁) h₂
  | reading _ h₂ _ => exact absurd h₂ (hserver _ _)

end Readers

/-! ## What holds along every run -/

/-- What the response segment has to do with `Serve`. -/
def Kept (c : Calls) (s : State) : Prop :=
  match s.server with
  | .accepted _ => s.resp = none
  | .writing k put got =>
    (∃ no, s.resp = some ⟨no, k⟩) ∧ got ≤ put ∧ put ≤ c.respSize k ∧ put ≤ got + capacity
  | _ => ∀ r, s.resp = some r → s.lastID = some (c.id r.call)

structure Inv (c : Calls) (s : State) : Prop where
  fresh : ∀ k, s.calls ≤ k → s.closed k = false
  current : ∀ k, s.client.call = some k → k < s.calls
  closed_iff : ∀ k, s.client.call = some k → (s.closed k = true ↔ s.client ≠ .created k)
  read : ∀ k h, s.client = .reading k h → h < s.responses
  named : ∀ r, s.resp = some r → r.no < s.responses
  kept : Kept c s

theorem inv_init (c : Calls) : Inv c .init where
  fresh _ _ := rfl
  current := nofun
  closed_iff := nofun
  read := nofun
  named := nofun
  kept := nofun

section Runs

variable {c : Calls} {s s' : State} {a : Act}

theorem Inv.step (h : Inv c s) (hstep : Step c s a s') : Inv c s' := by
  have hkept := h.kept
  unfold Kept at hkept
  cases hstep with
  | create hclient =>
    refine { h with fresh := ?_, current := ?_, closed_iff := ?_, read := nofun }
    · exact fun k hk => h.fresh k ((Nat.le_succ _).trans hk)
    · rintro k ⟨⟩
      exact Nat.lt_succ_self _
    · rintro k ⟨⟩
      exact iff_of_false (by simp [h.fresh s.calls le_rfl]) (not_not_intro rfl)
  | @closeReq k hclient hroom =>
    have hlt := h.current k (by rw [hclient]; rfl)
    refine { h with fresh := ?_, current := ?_, closed_iff := ?_, read := nofun }
    · intro j hj
      exact (Function.update_of_ne (hlt.trans_le hj).ne' ..).trans (h.fresh j hj)
    · rintro j ⟨⟩
      exact hlt
    · rintro j ⟨⟩
      exact iff_of_true (Function.update_self ..) nofun
  | @openResp k r hclient hresp hname =>
    refine { h with current := ?_, closed_iff := ?_, read := ?_ }
    · rintro j ⟨⟩
      exact h.current k (by rw [hclient]; rfl)
    · rintro j ⟨⟩
      have := (h.closed_iff k (by rw [hclient]; rfl)).mpr (by rw [hclient]; nofun)
      exact iff_of_true this nofun
    · rintro j no ⟨⟩
      exact h.named r hresp
  | @drain k j put got n r hclient hserver hresp hmore hput =>
    rw [hserver] at hkept
    obtain ⟨hno, hgot, hsize, hroom⟩ := hkept
    exact { h with kept := ⟨hno, hput, hsize, by omega⟩ }
  | finish hclient hclosed => exact { h with current := nofun, closed_iff := nofun, read := nofun }
  | giveUp hclient => exact { h with current := nofun, closed_iff := nofun, read := nofun }
  | openReq hserver hreq =>
    rw [hserver] at hkept
    exact { h with kept := hkept }
  | skip hserver hclosed hlast =>
    rw [hserver] at hkept
    exact { h with kept := hkept }
  | discard hserver hclosed hgone =>
    rw [hserver] at hkept
    exact { h with kept := hkept }
  | accept hserver hclosed hlast => exact { h with named := nofun, kept := rfl }
  | @createResp k hserver =>
    refine { h with
      read := ?_, named := ?_, kept := ⟨⟨_, rfl⟩, le_rfl, Nat.zero_le _, Nat.zero_le _⟩ }
    · exact fun k no hclient => (h.read k no hclient).trans (Nat.lt_succ_self _)
    · rintro r ⟨⟩
      exact Nat.lt_succ_self _
  | @put k put got n hserver hmore hsize hroom =>
    rw [hserver] at hkept
    obtain ⟨hno, hgot, -, -⟩ := hkept
    exact { h with kept := ⟨hno, by omega, hsize, hroom⟩ }
  | @closeResp k put got hserver hall =>
    rw [hserver] at hkept
    obtain ⟨⟨no, hno⟩, -⟩ := hkept
    refine { h with kept := ?_ }
    rintro r hr
    cases hno.symm.trans hr
    rfl

/-! ## Steps and readers -/

/-- Apart from a call that is given up and a request that is opened, no step takes a
response its reader. -/
theorem Safe.step (hsafe : Safe c s) (h : Inv c s) (hstep : Step c s a s') (hgive : a ≠ .giveUp)
    (hopen : a ≠ .openReq) : Safe c s' := by
  intro k room hans hneed
  have hkept := h.kept
  unfold Kept at hkept
  cases hstep with
  | create hclient =>
    exact absurd (hsafe k room (hans.of_eq rfl rfl rfl) hneed) (not_attended_of_ready hclient)
  | @closeReq j hclient hroom =>
    by_cases hjk : j = k
    · exact .waiting rfl (congrArg c.id hjk)
    · have hbefore : Answering c s k room := by
        cases hans with
        | opened h₁ h₂ h₃ =>
          exact .opened h₁ ((Function.update_of_ne (Ne.symm hjk) ..).symm.trans h₂) h₃
        | accepted h => exact .accepted h
        | writing h => exact .writing h
      cases hsafe k room hbefore hneed with
      | created h₁ h₂ h₃ =>
        cases hclient.symm.trans h₁
        exact .waiting rfl h₂
      | waiting h₁ _ => cases hclient.symm.trans h₁
      | reading h₁ _ _ => cases hclient.symm.trans h₁
  | @openResp j r hclient hresp hname =>
    cases hsafe k room (hans.of_eq rfl rfl rfl) hneed with
    | created h₁ _ _ => cases hclient.symm.trans h₁
    | reading h₁ _ _ => cases hclient.symm.trans h₁
    | waiting h₁ hid =>
      cases hclient.symm.trans h₁
      -- a response under this name is the one that `Serve` writes
      cases hans with
      | opened hserver _ hlast =>
        change s.server = _ at hserver
        rw [hserver] at hkept
        exact absurd ((hkept r hresp).trans (congrArg some (hname.trans hid))) hlast
      | accepted hserver =>
        change s.server = _ at hserver
        rw [hserver] at hkept
        cases hkept.symm.trans hresp
      | writing hserver => exact .reading rfl hserver hresp
  | @drain i j put got n r hclient hserver hresp hmore hput =>
    obtain ⟨rfl, -⟩ := hans.of_writing rfl
    exact .reading hclient rfl hresp
  | @finish j no hclient hclosed =>
    cases hsafe k room (hans.of_eq rfl rfl rfl) hneed with
    | created h₁ _ _ => cases hclient.symm.trans h₁
    | waiting h₁ _ => cases hclient.symm.trans h₁
    | reading h₁ h₂ h₃ =>
      cases hclient.symm.trans h₁
      exact absurd rfl (hclosed _ _ _ _ h₂ h₃)
  | giveUp => exact absurd rfl hgive
  | openReq => exact absurd rfl hopen
  | skip => exact absurd hans (not_answering_of_polling rfl)
  | discard => exact absurd hans (not_answering_of_polling rfl)
  | accept hserver hclosed hlast =>
    obtain ⟨rfl, rfl⟩ := hans.of_accepted rfl
    refine (hsafe k _ (.opened hserver hclosed hlast) hneed).of_client (fun _ _ h => ?_) rfl
    cases hserver.symm.trans h
  | createResp hserver =>
    obtain ⟨rfl, rfl⟩ := hans.of_writing rfl
    rw [Nat.zero_add] at hneed
    refine (hsafe k _ (.accepted hserver) hneed).of_client (fun _ _ h => ?_) rfl
    cases hserver.symm.trans h
  | put hserver hmore hsize hroom =>
    obtain ⟨rfl, rfl⟩ := hans.of_writing rfl
    cases hsafe k _ (.writing hserver) hneed with
    | created h₁ h₂ h₃ => exact .created h₁ h₂ h₃
    | waiting h₁ h₂ => exact .waiting h₁ h₂
    | reading h₁ _ h₃ => exact .reading h₁ rfl h₃
  | closeResp => exact absurd hans (not_answering_of_polling rfl)

theorem safe_giveUp_iff (hstep : Step c s .giveUp s') : Safe c s' ↔ Careful c s .giveUp := by
  cases hstep with
  | giveUp hclient =>
    constructor
    · intro h k room hans
      refine le_of_not_gt fun hneed => ?_
      exact not_attended_of_ready rfl (h k room (hans.of_eq rfl rfl rfl) hneed)
    · intro h k room hans hneed
      exact absurd (h k room (hans.of_eq rfl rfl rfl)) (not_le_of_gt hneed)

theorem safe_openReq_iff (h : Inv c s) (hstep : Step c s .openReq s') :
    Safe c s' ↔ Careful c s .openReq := by
  cases hstep with
  | @openReq k hserver hreq =>
    have hclosed := h.closed_iff k hreq
    constructor
    · intro hsafe j no hclient hlast
      obtain rfl : k = j := by
        rw [hclient] at hreq
        exact (Option.some.inj hreq).symm
      refine le_of_not_gt fun hneed => ?_
      have hans : Answering c { s with server := .opened k } k capacity :=
        .opened rfl (hclosed.mpr (by rw [hclient]; nofun)) hlast
      cases hsafe k _ hans hneed with
      | created h₁ => cases hclient.symm.trans h₁
      | waiting h₁ => cases hclient.symm.trans h₁
      | reading _ h₂ => cases h₂
    · intro hcareful j room hans hneed
      cases hans with
      | accepted h => cases h
      | writing h => cases h
      | opened h₁ h₂ h₃ =>
        cases h₁
        cases hclient : s.client with
        | ready =>
          rw [hclient] at hreq
          cases hreq
        | created i =>
          rw [hclient] at hreq
          cases hreq
          exact absurd hclient (hclosed.mp h₂)
        | waiting i =>
          rw [hclient] at hreq
          cases hreq
          exact .waiting rfl rfl
        | reading i no =>
          rw [hclient] at hreq
          cases hreq
          exact absurd (hcareful _ no hclient h₃) (not_le_of_gt hneed)

theorem safe_step (hsafe : Safe c s) (h : Inv c s) (hstep : Step c s a s') :
    Safe c s' ↔ Careful c s a := by
  by_cases hgive : a = .giveUp
  · subst hgive
    exact safe_giveUp_iff hstep
  by_cases hopen : a = .openReq
  · subst hopen
    exact safe_openReq_iff h hstep
  refine iff_of_true (hsafe.step h hstep hgive hopen) ?_
  cases a with
  | giveUp => exact absurd rfl hgive
  | openReq => exact absurd rfl hopen
  | _ => trivial

/-- A reader that is needed and not there does not come without a further call. -/
theorem not_safe_advance (hlost : ¬Safe c s) (h : Inv c s) (hstep : Advance c s s') :
    ¬Safe c s' := by
  obtain ⟨a, ha, hstep⟩ := hstep
  unfold Safe at hlost
  push Not at hlost
  obtain ⟨k, room, hans, hneed, hunread⟩ := hlost
  have hkept := h.kept
  unfold Kept at hkept
  -- it suffices that the same response is still to be written, in the same room
  suffices hafter : ∃ k room, Answering c s' k room ∧ room < c.respSize k ∧ ¬Attended c s' k by
    obtain ⟨k, room, hans, hneed, hunread⟩ := hafter
    exact fun hsafe => hunread (hsafe k room hans hneed)
  cases hstep with
  | create => cases ha
  | giveUp => cases ha
  | @closeReq j hclient hroom =>
    refine ⟨k, room, ?_, hneed, ?_⟩
    · cases hans with
      | opened h₁ h₂ h₃ =>
        refine .opened h₁ ?_ h₃
        by_cases hkj : k = j
        · exact hkj ▸ Function.update_self ..
        · exact (Function.update_of_ne hkj ..).trans h₂
      | accepted h => exact .accepted h
      | writing h => exact .writing h
    · rintro (⟨h', -, -⟩ | ⟨h', hid⟩ | ⟨h', -, -⟩)
      · cases h'
      · cases h'
        rcases hroom with hroom | hserver
        · exact hunread (.created hclient hid hroom)
        · obtain ⟨rfl, -, hclosed, -⟩ := hans.of_opened hserver
          exact (h.closed_iff _ (by rw [hclient]; rfl)).mp hclosed hclient
      · cases h'
  | @openResp j r hclient hresp hname =>
    refine ⟨k, room, hans.of_eq rfl rfl rfl, hneed, ?_⟩
    rintro (⟨h', -, -⟩ | ⟨h', -⟩ | ⟨h', hserver, hresp'⟩)
    · cases h'
    · cases h'
    · change s.server = _ at hserver
      rw [hserver] at hkept
      obtain ⟨⟨no, hno⟩, -⟩ := hkept
      cases hno.symm.trans hresp
      exact hunread (.waiting hclient hname.symm)
  | @drain i j put got n r hclient hserver hresp hmore hput =>
    obtain ⟨rfl, -⟩ := hans.of_writing hserver
    exact absurd (.reading hclient hserver hresp) hunread
  | finish hclient hclosed =>
    exact ⟨k, room, hans.of_eq rfl rfl rfl, hneed, not_attended_of_ready rfl⟩
  | openReq hserver hreq => exact absurd hans (not_answering_of_polling hserver)
  | skip hserver hclosed hlast =>
    obtain ⟨rfl, -, -, hnew⟩ := hans.of_opened hserver
    exact absurd hlast hnew
  | discard hserver hclosed hgone =>
    obtain ⟨rfl, -, hclosed', -⟩ := hans.of_opened hserver
    cases hclosed.symm.trans hclosed'
  | accept hserver hclosed hlast =>
    obtain ⟨rfl, rfl, -, -⟩ := hans.of_opened hserver
    exact ⟨k, _, .accepted rfl, hneed, fun h => hunread (h.of_client nofun rfl)⟩
  | createResp hserver =>
    obtain ⟨rfl, rfl⟩ := hans.of_accepted hserver
    refine ⟨k, _, .writing rfl, by rwa [Nat.zero_add], ?_⟩
    rintro (⟨h', hid, hroom⟩ | ⟨h', hid⟩ | ⟨h', -, hresp⟩)
    · exact hunread (.created h' hid hroom)
    · exact hunread (.waiting h' hid)
    · cases hresp
      exact absurd (h.read _ _ h') (lt_irrefl _)
  | put hserver hmore hsize hroom =>
    obtain ⟨rfl, rfl⟩ := hans.of_writing hserver
    refine ⟨k, _, .writing rfl, hneed, ?_⟩
    rintro (⟨h', hid, hroom⟩ | ⟨h', hid⟩ | ⟨h', -, hresp⟩)
    · exact hunread (.created h' hid hroom)
    · exact hunread (.waiting h' hid)
    · exact hunread (.reading h' hserver hresp)
  | closeResp hserver hall =>
    obtain ⟨rfl, rfl⟩ := hans.of_writing hserver
    rw [hserver] at hkept
    obtain ⟨-, -, -, hroom⟩ := hkept
    exact absurd hneed (by omega)

/-! ## Getting back -/

def Client.rank : Client → Nat
  | ready => 0
  | reading .. => 1
  | waiting _ => 2
  | created _ => 3

def Server.rank (c : Calls) : Server → Nat
  | polling => 0
  | opened k => 2 * c.respSize k + 3
  | accepted k => 2 * c.respSize k + 2
  | writing k put got => (c.respSize k - put) + (c.respSize k - got) + 1

/-- The steps that are left until `Serve` waits for a request and the call is over, at most. -/
def rank (c : Calls) (s : State) : Nat := s.client.rank + s.server.rank c

theorem rank_lt (h : Inv c s) (hbusy : s.server ≠ .polling) (hstep : Advance c s s') :
    rank c s' < rank c s := by
  obtain ⟨a, ha, hstep⟩ := hstep
  have hkept := h.kept
  unfold Kept at hkept
  unfold rank
  cases hstep with
  | create => cases ha
  | giveUp => cases ha
  | openReq hserver => exact absurd hserver hbusy
  | closeReq hclient => simp [hclient, Client.rank]
  | openResp hclient => simp [hclient, Client.rank]
  | finish hclient => simp [hclient, Client.rank]
  | skip hserver => simp [hserver, Server.rank]
  | discard hserver => simp [hserver, Server.rank]
  | accept hserver => simp [hserver, Server.rank]
  | createResp hserver =>
    simp only [hserver, Server.rank]
    omega
  | drain hclient hserver hresp hmore hput =>
    rw [hserver] at hkept ⊢
    simp only [Server.rank]
    omega
  | put hserver hmore hsize hroom =>
    rw [hserver]
    simp only [Server.rank]
    omega
  | closeResp hserver hall => simp [hserver, Server.rank]

/-- As long as it is safe, somebody can go on. -/
theorem exists_advance (hsafe : Safe c s) (h : Inv c s) (hbusy : s.server ≠ .polling) :
    ∃ s', Advance c s s' := by
  cases hserver : s.server with
  | polling => exact absurd hserver hbusy
  | opened k =>
    cases hclosed : s.closed k with
    | true =>
      by_cases hlast : s.lastID = some (c.id k)
      · exact ⟨_, _, rfl, .skip hserver hclosed hlast⟩
      · exact ⟨_, _, rfl, .accept hserver hclosed hlast⟩
    | false =>
      by_cases hclient : s.client = .created k
      · exact ⟨_, _, rfl, .closeReq hclient (.inr hserver)⟩
      · exact ⟨_, _, rfl, .discard hserver hclosed hclient⟩
  | accepted k => exact ⟨_, _, rfl, .createResp hserver⟩
  | writing k put got =>
    have hkept := h.kept
    unfold Kept at hkept
    rw [hserver] at hkept
    obtain ⟨⟨no, hno⟩, hgot, hsize, hroom⟩ := hkept
    by_cases hall : put = c.respSize k
    · exact ⟨_, _, rfl, .closeResp hserver hall⟩
    by_cases hfull : put = got + capacity
    · -- the ring is full, so the reader that is needed goes on
      cases hsafe k _ (.writing hserver) (by omega) with
      | created h₁ _ h₃ => exact ⟨_, _, rfl, .closeReq h₁ (.inl h₃)⟩
      | waiting h₁ h₂ => exact ⟨_, _, rfl, .openResp h₁ hno h₂.symm⟩
      | reading h₁ h₂ h₃ =>
        have hcap : 0 < capacity := by decide
        exact ⟨_, _, rfl, .drain h₁ hserver h₃ (by omega) le_rfl⟩
    · exact ⟨_, _, rfl, .put hserver (Nat.lt_succ_self put) (by omega) (by omega)⟩

theorem returns_iff_safe (h : Inv c s) : Returns c s ↔ Safe c s := by
  constructor
  · intro hreturns
    by_contra hlost
    refine Relation.not_inevitable (P := fun s => Inv c s ∧ ¬Safe c s) ?_ ?_ ⟨h, hlost⟩ hreturns
    · rintro s ⟨-, hlost⟩ hpolling
      exact hlost fun k room hans => absurd hans (not_answering_of_polling hpolling)
    · rintro s s' ⟨h, hlost⟩ hstep
      obtain ⟨a, -, hstep'⟩ := id hstep
      exact ⟨h.step hstep', not_safe_advance hlost h hstep⟩
  · intro hsafe
    refine Relation.inevitable_of_measure (P := fun s => Inv c s ∧ Safe c s)
      (rank c) ?_ ?_ ⟨h, hsafe⟩
    · rintro s ⟨h, hsafe⟩ hbusy
      exact exists_advance hsafe h hbusy
    · rintro s s' ⟨h, hsafe⟩ hbusy hstep
      obtain ⟨a, ha, hstep'⟩ := id hstep
      refine ⟨⟨h.step hstep', hsafe.step h hstep' ?_ ?_⟩, rank_lt h hbusy hstep⟩
      · rintro rfl
        cases ha
      · rintro rfl
        cases hstep' with
        | openReq hserver => exact hbusy hserver

end Runs

/-! ## Runs -/

/-- In every state of a run `Serve` gets back to waiting for the next request, exactly if every step
of the run was careful. -/
theorem serve_returns_iff (c : Calls) {n : Nat} {run : Nat → State} {acts : Nat → Act}
    (hinit : run 0 = .init) (hsteps : ∀ i, i < n → Step c (run i) (acts i) (run (i + 1))) :
    (∀ i, i ≤ n → Returns c (run i)) ↔ ∀ i, i < n → Careful c (run i) (acts i) := by
  have hinv : ∀ i, i ≤ n → Inv c (run i) := by
    intro i
    induction i with
    | zero => exact fun _ => hinit ▸ inv_init c
    | succ i ih => exact fun hi => (ih (by omega)).step (hsteps i hi)
  have hfirst : Safe c (run 0) :=
    fun k room hans => absurd hans (not_answering_of_polling (by rw [hinit]; rfl))
  have hlater : (∀ i, i < n → Returns c (run (i + 1))) ↔
      ∀ i, i < n → Careful c (run i) (acts i) := by
    refine Nat.forall_lt_iff (I := fun i => Safe c (run i)) hfirst (fun i hi hsafe => ?_)
      fun i hi hsafe hcareful => ?_
    · rw [returns_iff_safe (hinv _ hi)]
      exact safe_step hsafe (hinv i hi.le) (hsteps i hi)
    · exact (safe_step hsafe (hinv i hi.le) (hsteps i hi)).mpr hcareful
  rw [← hlater]
  refine ⟨fun h i hi => h (i + 1) hi, fun h i hi => ?_⟩
  cases i with
  | zero => exact (returns_iff_safe (hinv 0 hi)).mpr hfirst
  | succ i => exact h i hi

/-! ## A call that is given up while `Serve` reads its request -/

/-- The first call has an id of its own, its response the given length. -/
def oneOff (size : Nat) : Calls where
  id k := if k = 0 then 0 else 1
  reqSize _ := 64
  respSize _ := size

def abandoned : List Act := [.create, .closeReq, .openReq, .giveUp]

def abandonedRun : Nat → State
  | 0 => .init
  | 1 => { State.init with client := .created 0, calls := 1 }
  | 2 => { State.init with
      client := .waiting 0, calls := 1, closed := Function.update (fun _ => false) 0 true }
  | 3 => { State.init with
      client := .waiting 0, server := .opened 0, calls := 1
      closed := Function.update (fun _ => false) 0 true }
  | _ => { State.init with
      server := .opened 0, calls := 1, closed := Function.update (fun _ => false) 0 true }

theorem steps_abandonedRun (size : Nat) : ∀ i, i < 4 →
    Step (oneOff size) (abandonedRun i) (abandoned.getD i .create) (abandonedRun (i + 1))
  | 0, _ => .create rfl
  | 1, _ => .closeReq rfl (.inl (show 64 ≤ capacity by decide))
  | 2, _ => .openReq rfl rfl
  | 3, _ => .giveUp nofun

/-- A short response needs no reader. -/
theorem serve_returns_short : Returns (oneOff 100) (abandonedRun 4) := by
  refine (serve_returns_iff (oneOff 100) rfl (steps_abandonedRun 100)).mpr (fun i hi => ?_) 4 le_rfl
  match i, hi with
  | 0, _ => trivial
  | 1, _ => trivial
  | 2, _ => exact nofun
  | 3, _ =>
    rintro k room (⟨hserver, -, -⟩ | hserver | hserver)
    · exact (by decide : 100 ≤ capacity)
    · cases hserver
    · cases hserver

/-- `Serve` has filled the ring with the response to the first call, which is over. -/
structure Wedged (s : State) : Prop where
  full : s.server = .writing 0 capacity 0
  resp : s.resp = some ⟨0, 0⟩
  later : ∀ k, s.client.call = some k → 0 < k
  calls : 0 < s.calls
  unread : ∀ k h, s.client ≠ .reading k h

theorem Wedged.step {s s' : State} {a : Act} (h : Wedged s)
    (hstep : Step (oneOff 40000) s a s') : Wedged s' := by
  cases hstep with
  | create hclient =>
    refine { h with later := fun k hk => ?_, calls := Nat.succ_pos _, unread := nofun }
    exact Option.some.inj hk ▸ h.calls
  | @closeReq k hclient =>
    exact { h with
      later := fun j hj => Option.some.inj hj ▸ h.later k (by rw [hclient]; rfl)
      unread := nofun }
  | @openResp k r hclient hresp hname =>
    -- only the first call has the name of the response
    cases h.resp.symm.trans hresp
    have hk := h.later k (by rw [hclient]; rfl)
    simp [oneOff, hk.ne'] at hname
  | drain hclient => exact absurd hclient (h.unread _ _)
  | finish hclient => exact absurd hclient (h.unread _ _)
  | giveUp => exact { h with later := nofun, unread := nofun }
  | openReq hserver => cases h.full.symm.trans hserver
  | skip hserver => cases h.full.symm.trans hserver
  | discard hserver => cases h.full.symm.trans hserver
  | accept hserver => cases h.full.symm.trans hserver
  | createResp hserver => cases h.full.symm.trans hserver
  | put hserver hmore hsize hroom =>
    cases h.full.symm.trans hserver
    omega
  | closeResp hserver hall =>
    cases h.full.symm.trans hserver
    exact absurd hall (by decide)

/-- The state after the abandoned call, when `Serve` has accepted its request and
filled the ring. -/
def wedged : State := { abandonedRun 4 with
  server := .writing 0 capacity 0, resp := some ⟨0, 0⟩, responses := 1 }

theorem wedged_wedged : Wedged wedged where
  full := rfl
  resp := rfl
  later := nofun
  calls := Nat.one_pos
  unread := nofun

/-- One call is given up, and whatever is called after that, `Serve` stays where it is. -/
theorem serve_wedged :
    Relation.ReflTransGen (fun s s' => ∃ a, Step (oneOff 40000) s a s') .init wedged ∧
      ∀ s, Relation.ReflTransGen (fun s s' => ∃ a, Step (oneOff 40000) s a s') wedged s →
        s.server = .writing 0 capacity 0 := by
  constructor
  · have hstep (i : Nat) (hi : i < 4) := steps_abandonedRun 40000 i hi
    have haccept : Step (oneOff 40000) (abandonedRun 4) .accept
        { abandonedRun 4 with server := .accepted 0, resp := none } := .accept rfl rfl nofun
    have hcreate : Step (oneOff 40000) { abandonedRun 4 with server := .accepted 0, resp := none }
        .createResp
        { abandonedRun 4 with server := .writing 0 0 0, resp := some ⟨0, 0⟩, responses := 1 } :=
          .createResp rfl
    have hput : Step (oneOff 40000) { abandonedRun 4 with
        server := .writing 0 0 0, resp := some ⟨0, 0⟩, responses := 1 } .put wedged :=
      .put rfl (by decide) (by decide) (by decide)
    have hrun :
        Relation.ReflTransGen (fun s s' =>
          ∃ a, Step (oneOff 40000) s a s') .init (abandonedRun 4) :=
      .tail (.tail (.tail (.tail .refl ⟨_, hstep 0 (by decide)⟩) ⟨_, hstep 1 (by decide)⟩)
        ⟨_, hstep 2 (by decide)⟩) ⟨_, hstep 3 (by decide)⟩
    exact ((hrun.tail ⟨_, haccept⟩).tail ⟨_, hcreate⟩).tail ⟨_, hput⟩
  · intro s hrun
    have hwedged : Wedged s :=
      hrun.invariant (P := Wedged) (fun h ⟨_, hstep⟩ => h.step hstep) wedged_wedged
    exact hwedged.full

end KvRaft.Ipc.Abandon
