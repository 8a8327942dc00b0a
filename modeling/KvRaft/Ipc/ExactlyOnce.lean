import KvRaft.Ipc.Protocol

/-! # When each call is handled exactly once

The invariant `Inv` ties the two sides together by two numbers, the calls that are over and the
handler's runs, which differ by one at most. It needs that no call has the id of the call before it:
the response of the last run stays under its name until a request with another id is read. -/

namespace KvRaft.Ipc

open Shmevent Relation

variable {calls : List Msg} {s s' : State}

/-! ## The invariant -/

def lastSeen (calls : List Msg) : Nat → Option UInt16
  | 0 => none
  | n + 1 => calls[n]?.map (·.id)

/-- The response of the last of `n` runs is the only one that has a name. -/
def lastOnly (calls : List Msg) (n : Nat) (id : UInt16) : Option Nat :=
  if lastSeen calls n = some id then some (n - 1) else none

/-- The server has finished with the runs so far. -/
structure Settled (calls : List Msg) (s : State) : Prop where
  answered : s.answered = s.handled.length
  lastID : s.lastID = lastSeen calls s.handled.length
  pending : s.pendingResp = lastSeen calls s.handled.length
  resp : ∀ id, s.resp id = lastOnly calls s.handled.length id

/-- The response is the one that the handler's run for the current call gave. -/
def OwnResponse (calls : List Msg) (s : State) (j : Nat) (resp : Msg) : Prop :=
  ∃ m x, calls[j]? = some m ∧ s.handled[j]? = some (j, x) ∧ resp = ⟨m.id, x⟩

def ClientInv (calls : List Msg) (s : State) : Prop :=
  match s.client with
  | .ready => s.req = none ∧ s.written = s.returned.length ∧ s.handled.length = s.returned.length
  | .created =>
    s.req = some s.returned.length ∧ s.written = s.returned.length ∧
      s.handled.length = s.returned.length ∧ s.returned.length < calls.length
  | .waiting =>
    s.req = some s.returned.length ∧ s.written = s.returned.length + 1 ∧
      s.returned.length ≤ s.handled.length ∧ s.handled.length ≤ s.returned.length + 1 ∧
      s.returned.length < calls.length
  | .reading h =>
    s.req = some s.returned.length ∧ s.written = s.returned.length + 1 ∧ h = s.returned.length ∧
      s.handled.length = s.returned.length + 1 ∧ s.returned.length < calls.length
  | .received resp =>
    s.req = some s.returned.length ∧ s.written = s.returned.length + 1 ∧
      s.handled.length = s.returned.length + 1 ∧ s.returned.length < calls.length ∧
      s.answered = s.handled.length ∧ OwnResponse calls s s.returned.length resp

def ServerInv (calls : List Msg) (s : State) : Prop :=
  match s.server with
  | .polling => Settled calls s
  -- the last request once more, or the next one
  | .opened k =>
    Settled calls s ∧
      (k + 1 = s.handled.length ∨ k = s.handled.length ∧ k = s.returned.length ∧ s.req = some k)
  | .accepted k =>
    k = s.handled.length ∧ k = s.returned.length ∧ k < s.written ∧ s.answered = s.handled.length ∧
      ∀ id, s.resp id = none
  | .responding k =>
    k + 1 = s.handled.length ∧ k = s.returned.length ∧ s.answered + 1 = s.handled.length ∧
      ∀ id, s.resp id = none
  | .writing k =>
    k + 1 = s.handled.length ∧ k = s.returned.length ∧ s.answered + 1 = s.handled.length ∧
      ∀ id, s.resp id = lastOnly calls s.handled.length id

structure Inv (calls : List Msg) (s : State) : Prop where
  order : s.handled.map (·.1) = List.range s.handled.length
  own : ∀ j resp, s.returned[j]? = some resp → OwnResponse calls s j resp
  client : ClientInv calls s
  server : ServerInv calls s

theorem inv_init (calls : List Msg) : Inv calls .init where
  order := rfl
  own := nofun
  client := ⟨rfl, rfl, rfl⟩
  server := ⟨rfl, rfl, rfl, fun _ => rfl⟩

variable {m : Msg} {n i k : Nat} {x : Event}

theorem lastSeen_of_getElem? (h : calls[n]? = some m) :
    lastSeen calls (n + 1) = some m.id := by
  rw [lastSeen, h]
  rfl

theorem lastSeen_ne (hfresh : FreshIDs calls) (hm : calls[n]? = some m) :
    lastSeen calls n ≠ some m.id := by
  intro hlast
  cases n with
  | zero => cases hlast
  | succ n =>
    obtain ⟨a, ha, hid⟩ := Option.map_eq_some_iff.mp hlast
    exact hfresh n a m ha hm hid

theorem lastOnly_eq_some {h : Nat} {id : UInt16} (hresp : lastOnly calls n id = some h) :
    ∃ a, n = h + 1 ∧ calls[h]? = some a ∧ a.id = id := by
  unfold lastOnly at hresp
  split_ifs at hresp with hlast
  cases n with
  | zero => cases hlast
  | succ n =>
    obtain rfl : n = h := Option.some.inj hresp
    obtain ⟨a, ha, hid⟩ := Option.map_eq_some_iff.mp hlast
    exact ⟨a, rfl, ha, hid⟩

theorem Inv.call_of_run (h : Inv calls s) (hrun : s.handled[i]? = some (k, x)) :
    k = i := by
  have hi : i < s.handled.length := (List.getElem?_eq_some_iff.mp hrun).1
  have hmap : (s.handled.map (·.1))[i]? = some k := by rw [List.getElem?_map, hrun]; rfl
  rw [h.order, List.getElem?_range hi] at hmap
  exact (Option.some.inj hmap).symm

theorem OwnResponse.append {j : Nat} {resp : Msg}
    (h : OwnResponse calls s j resp) (hs : s'.handled = s.handled ++ [(k, x)]) :
    OwnResponse calls s' j resp := by
  obtain ⟨m, y, hm, hrun, rfl⟩ := h
  refine ⟨m, y, hm, ?_, rfl⟩
  rw [hs, List.getElem?_append_left (List.getElem?_eq_some_iff.mp hrun).1]
  exact hrun

/-! ## The client's steps -/

theorem Inv.clientAt (h : Inv calls s) {c : Client} (hc : s.client = c) :
    ClientInv calls { s with client := c } := by
  subst hc
  exact h.client

theorem Inv.serverAt (h : Inv calls s) {v : Server} (hv : s.server = v) :
    ServerInv calls { s with server := v } := by
  subst hv
  exact h.server

/-- The server's part looks at the request's segment and at the number of requests only
in one way. -/
theorem ServerInv.of_request (h : ServerInv calls s) {c : Client} {req : Option Nat} {written : Nat}
    (hreq : ∀ k, s.req = some k → req = some k) (hwritten : s.written ≤ written) :
    ServerInv calls { s with client := c, req := req, written := written } := by
  unfold ServerInv at h ⊢
  dsimp only
  cases hserver : s.server with
  | polling =>
    rw [hserver] at h
    exact ⟨h.1, h.2, h.3, h.4⟩
  | opened k =>
    rw [hserver] at h
    obtain ⟨hsettled, hk⟩ := h
    refine ⟨⟨hsettled.1, hsettled.2, hsettled.3, hsettled.4⟩, hk.imp_right fun hk => ?_⟩
    exact ⟨hk.1, hk.2.1, hreq k hk.2.2⟩
  | accepted k =>
    rw [hserver] at h
    exact ⟨h.1, h.2.1, h.2.2.1.trans_le hwritten, h.2.2.2⟩
  | responding k =>
    rw [hserver] at h
    exact h
  | writing k =>
    rw [hserver] at h
    exact h

theorem Inv.create (h : Inv calls s) (hclient : s.client = .ready)
    (hmore : s.returned.length < calls.length) :
    Inv calls { s with client := .created, req := some s.returned.length } := by
  obtain ⟨hreq, hwritten, hlen⟩ := h.clientAt hclient
  refine ⟨h.order, h.own, ⟨rfl, hwritten, hlen, hmore⟩, h.server.of_request (fun k hk => ?_) le_rfl⟩
  cases hreq.symm.trans hk

theorem Inv.close (h : Inv calls s) (hclient : s.client = .created) :
    Inv calls { s with client := .waiting, written := s.returned.length + 1 } := by
  obtain ⟨hreq, hwritten, hlen, hmore⟩ := h.clientAt hclient
  refine ⟨h.order, h.own, ⟨hreq, rfl, hlen.ge, hlen.le.trans (Nat.le_succ _), hmore⟩, ?_⟩
  exact h.server.of_request (fun _ hk => hk) (hwritten.le.trans (Nat.le_succ _))

/-- A response under the name of the current call is the current call's, since the call before had
another name. -/
theorem Inv.resp_of_waiting (h : Inv calls s) (hfresh : FreshIDs calls)
    (hclient : s.client = .waiting)
    (hm : calls[s.returned.length]? = some m) (hresp : s.resp m.id = some i) :
    i = s.returned.length ∧ s.handled.length = s.returned.length + 1 := by
  obtain ⟨-, -, hle, hle', -⟩ := h.clientAt hclient
  have hlast (hr : s.resp m.id = lastOnly calls s.handled.length m.id) :
      i = s.returned.length ∧ s.handled.length = s.returned.length + 1 := by
    rw [hresp] at hr
    obtain ⟨a, hi, ha, hid⟩ := lastOnly_eq_some hr.symm
    dsimp only at hle hle'
    by_cases hcur : i = s.returned.length
    · exact ⟨hcur, by omega⟩
    · have hprev : s.returned.length = i + 1 := by omega
      rw [hprev] at hm
      exact absurd hid (hfresh i a m ha hm)
  have hnone (hr : ∀ id, s.resp id = none) : i = s.returned.length ∧
      s.handled.length = s.returned.length + 1 := by
    rw [hr] at hresp
    cases hresp
  cases hserver : s.server with
  | polling => exact hlast ((h.serverAt hserver).4 _)
  | opened k => exact hlast ((h.serverAt hserver).1.4 _)
  | accepted k => exact hnone (h.serverAt hserver).2.2.2.2
  | responding k => exact hnone (h.serverAt hserver).2.2.2
  | writing k => exact hlast ((h.serverAt hserver).2.2.2 _)

theorem Inv.openResp (h : Inv calls s) (hfresh : FreshIDs calls) (hclient : s.client = .waiting)
    (hm : calls[s.returned.length]? = some m) (hresp : s.resp m.id = some i) :
    Inv calls { s with client := .reading i } := by
  obtain ⟨hreq, hwritten, -, -, hmore⟩ := h.clientAt hclient
  obtain ⟨hi, hlen⟩ := h.resp_of_waiting hfresh hclient hm hresp
  exact ⟨h.order, h.own, ⟨hreq, hwritten, hi, hlen, hmore⟩,
    h.server.of_request (fun _ hk => hk) le_rfl⟩

theorem Inv.answered_le (h : Inv calls s) : s.answered ≤ s.handled.length := by
  cases hserver : s.server with
  | polling => exact (h.serverAt hserver).1.le
  | opened k => exact (h.serverAt hserver).1.1.le
  | accepted k => exact (h.serverAt hserver).2.2.2.1.le
  | responding k => exact Nat.le_of_lt (Nat.lt_of_succ_le (h.serverAt hserver).2.2.1.le)
  | writing k => exact Nat.le_of_lt (Nat.lt_of_succ_le (h.serverAt hserver).2.2.1.le)

theorem Inv.readResp (h : Inv calls s)
    (hclient : s.client = .reading i) (hclosed : i < s.answered)
    (hrun : s.handled[i]? = some (k, x))
    (hm : calls[k]? = some m) : Inv calls { s with client := .received ⟨m.id, x⟩ } := by
  obtain ⟨hreq, hwritten, hi, hlen, hmore⟩ := h.clientAt hclient
  obtain rfl := h.call_of_run hrun
  dsimp only at hi hlen
  have hle := h.answered_le
  subst hi
  refine ⟨h.order, h.own, ⟨hreq, hwritten, hlen, hmore, ?_, ⟨m, x, hm, hrun, rfl⟩⟩,
    h.server.of_request (fun _ hk => hk) le_rfl⟩
  show s.answered = s.handled.length
  omega

theorem Inv.ret (h : Inv calls s) {resp : Msg} (hclient : s.client = .received resp) :
    Inv calls { s with client := .ready, req := none, returned := s.returned ++ [resp] } := by
  obtain ⟨-, hwritten, hlen, -, hanswered, hown⟩ := h.clientAt hclient
  dsimp only at hwritten hlen hanswered
  refine ⟨h.order, fun j r hr => ?_, ⟨rfl, by simpa using hwritten, by simpa using hlen⟩, ?_⟩
  · dsimp only at hr
    rcases Nat.lt_or_ge j s.returned.length with hj | hj
    · rw [List.getElem?_append_left hj] at hr
      exact h.own j r hr
    · rw [List.getElem?_append_right hj] at hr
      obtain rfl : j = s.returned.length := by
        have := (List.getElem?_eq_some_iff.mp hr).1
        simp at this
        omega
      simp at hr
      subst hr
      exact hown
  -- the call is over, so the server has closed its response and can only be reading the request
  -- again
  · have hs := h.server
    unfold ServerInv at hs ⊢
    dsimp only
    cases hserver : s.server with
    | polling =>
      rw [hserver] at hs
      exact ⟨hs.1, hs.2, hs.3, hs.4⟩
    | opened k =>
      rw [hserver] at hs
      obtain ⟨hsettled, hk⟩ := hs
      exact ⟨⟨hsettled.1, hsettled.2, hsettled.3, hsettled.4⟩, .inl (by omega)⟩
    | accepted k =>
      rw [hserver] at hs
      omega
    | responding k =>
      rw [hserver] at hs
      omega
    | writing k =>
      rw [hserver] at hs
      omega

/-! ## The server's steps -/

theorem Inv.openReq (h : Inv calls s) (hserver : s.server = .polling) (hreq : s.req = some k) :
    Inv calls { s with server := .opened k } := by
  obtain ⟨hanswered, hlast, hpending, hresp⟩ := h.serverAt hserver
  refine ⟨h.order, h.own, h.client, ⟨hanswered, hlast, hpending, hresp⟩, ?_⟩
  show k + 1 = s.handled.length ∨ k = s.handled.length ∧ k = s.returned.length ∧ s.req = some k
  have hcur : k = s.returned.length ∧
      (s.handled.length = s.returned.length ∨ s.handled.length = s.returned.length + 1) := by
    cases hclient : s.client with
    | ready =>
      obtain ⟨hnone, -⟩ := h.clientAt hclient
      cases hnone.symm.trans hreq
    | created =>
      obtain ⟨hsome, -, hlen, -⟩ := h.clientAt hclient
      exact ⟨Option.some.inj (hreq.symm.trans hsome), .inl hlen⟩
    | waiting =>
      obtain ⟨hsome, -, hle, hle', -⟩ := h.clientAt hclient
      dsimp only at hle hle'
      exact ⟨Option.some.inj (hreq.symm.trans hsome), by omega⟩
    | reading i =>
      obtain ⟨hsome, -, -, hlen, -⟩ := h.clientAt hclient
      exact ⟨Option.some.inj (hreq.symm.trans hsome), .inr hlen⟩
    | received resp =>
      obtain ⟨hsome, -, hlen, -⟩ := h.clientAt hclient
      exact ⟨Option.some.inj (hreq.symm.trans hsome), .inr hlen⟩
  obtain ⟨hk, hlen | hlen⟩ := hcur
  · exact .inr ⟨by omega, hk, hreq⟩
  · exact .inl (by omega)

theorem Inv.skip (h : Inv calls s) (hserver : s.server = .opened k) :
    Inv calls { s with server := .polling } := by
  obtain ⟨⟨hanswered, hlast, hpending, hresp⟩, -⟩ := h.serverAt hserver
  exact ⟨h.order, h.own, h.client, ⟨hanswered, hlast, hpending, hresp⟩⟩

theorem Inv.accept (h : Inv calls s) (hserver : s.server = .opened k)
    (hclosed : k < s.written) (hm : calls[k]? = some m) (hnew : s.lastID ≠ some m.id) :
    Inv calls { s with server := .accepted k, resp := s.cleanupPending, pendingResp := none } := by
  obtain ⟨⟨hanswered, hlast, hpending, hresp⟩, hk⟩ := h.serverAt hserver
  dsimp only at hanswered hlast hpending hresp hk
  refine ⟨h.order, h.own, h.client, ?_⟩
  rcases hk with hk | ⟨hk, hk', -⟩
  · -- the request that was answered last has the id that is remembered
    rw [← hk, lastSeen_of_getElem? hm] at hlast
    exact absurd hlast hnew
  · refine ⟨hk, hk', hclosed, hanswered, fun id => ?_⟩
    show s.cleanupPending id = none
    rw [State.cleanupPending, hresp, hpending, lastOnly]
    split_ifs <;> rfl

theorem Inv.handle (h : Inv calls s) (x : Event) (hserver : s.server = .accepted k) :
    Inv calls { s with server := .responding k, handled := s.handled ++ [(k, x)] } := by
  obtain ⟨hk, hk', hclosed, hanswered, hresp⟩ := h.serverAt hserver
  dsimp only at hk hk' hclosed hanswered hresp
  refine ⟨?_, fun j r hr => (h.own j r hr).append rfl, ?_, ?_⟩
  · show (s.handled ++ [(k, x)]).map (·.1) = List.range (s.handled ++ [(k, x)]).length
    rw [List.map_append, h.order, List.length_append, List.length_singleton, List.range_succ, hk]
    rfl
  · -- only a client that waits has a closed request and no response yet
    have hc := h.client
    unfold ClientInv at hc ⊢
    dsimp only
    cases hclient : s.client with
    | waiting =>
      rw [hclient] at hc
      obtain ⟨hreq, hwritten, hle, hle', hmore⟩ := hc
      refine ⟨hreq, hwritten, ?_, ?_, hmore⟩
      · simp only [List.length_append, List.length_singleton]
        omega
      · simp only [List.length_append, List.length_singleton]
        omega
    | ready =>
      rw [hclient] at hc
      omega
    | created =>
      rw [hclient] at hc
      omega
    | reading i =>
      rw [hclient] at hc
      omega
    | received resp =>
      rw [hclient] at hc
      omega
  · show k + 1 = (s.handled ++ [(k, x)]).length ∧ k = s.returned.length ∧
      s.answered + 1 = (s.handled ++ [(k, x)]).length ∧ ∀ id, s.resp id = none
    simp only [List.length_append, List.length_singleton]
    exact ⟨by omega, hk', by omega, hresp⟩

theorem Inv.createResp (h : Inv calls s) (hserver : s.server = .responding k)
    (hm : calls[k]? = some m) :
    Inv calls { s with
      server := .writing k
      resp := fun id => if id = m.id then some (s.handled.length - 1) else s.resp id } := by
  obtain ⟨hk, hk', hanswered, hresp⟩ := h.serverAt hserver
  dsimp only at hk hk' hanswered hresp
  refine ⟨h.order, h.own, h.client, hk, hk', hanswered, fun id => ?_⟩
  show (if id = m.id then some (s.handled.length - 1) else s.resp id) =
    lastOnly calls s.handled.length id
  rw [hresp, lastOnly, ← hk, lastSeen_of_getElem? hm]
  simp only [Option.some.injEq, eq_comm]

theorem Inv.closeResp (h : Inv calls s) (hserver : s.server = .writing k)
    (hm : calls[k]? = some m) :
    Inv calls { s with
      server := .polling
      answered := s.handled.length
      lastID := some m.id
      pendingResp := some m.id } := by
  obtain ⟨hk, -, hanswered, hresp⟩ := h.serverAt hserver
  dsimp only at hk hanswered hresp
  have hlast : some m.id = lastSeen calls s.handled.length := by
    rw [← hk, lastSeen_of_getElem? hm]
  refine ⟨h.order, h.own, ?_, rfl, hlast, hlast, hresp⟩
  have hc := h.client
  unfold ClientInv at hc ⊢
  dsimp only
  cases hclient : s.client with
  | received resp =>
    rw [hclient] at hc
    obtain ⟨hreq, hwritten, hlen, hmore, -, hown⟩ := hc
    exact ⟨hreq, hwritten, hlen, hmore, rfl, hown⟩
  | ready =>
    rw [hclient] at hc
    exact hc
  | created =>
    rw [hclient] at hc
    exact hc
  | waiting =>
    rw [hclient] at hc
    exact hc
  | reading i =>
    rw [hclient] at hc
    exact hc

/-- Every step keeps the invariant. -/
theorem Inv.step (hfresh : FreshIDs calls) (h : Inv calls s) (hstep : Step calls s s') :
    Inv calls s' := by
  cases hstep with
  | create hclient hmore _ => exact h.create hclient hmore
  | close hclient => exact h.close hclient
  | openResp hclient hm hresp => exact h.openResp hfresh hclient hm hresp
  | readResp hclient hclosed hrun hm => exact h.readResp hclient hclosed hrun hm
  | ret hclient => exact h.ret hclient
  | openReq hserver hreq => exact h.openReq hserver hreq
  | skip hserver _ _ _ => exact h.skip hserver
  | accept hserver hclosed hm hlast => exact h.accept hserver hclosed hm hlast
  | handle x hserver => exact h.handle x hserver
  | createResp hserver hm _ => exact h.createResp hserver hm
  | closeResp hserver hm => exact h.closeResp hserver hm

theorem Reachable.inv (hfresh : FreshIDs calls) (h : Reachable calls s) : Inv calls s :=
  h.invariant (fun hs hstep => hs.step hfresh hstep) (inv_init calls)

/-! ## What is served -/

theorem length_filter_le_one {l : List (Nat × Event)} (h : (l.map (·.1)).Nodup) (j : Nat) :
    (l.filter (·.1 = j)).length ≤ 1 := by
  have hcount := List.nodup_iff_count_le_one.mp h j
  rw [List.count_eq_countP, List.countP_map] at hcount
  rw [← List.countP_eq_length_filter]
  refine le_trans (le_of_eq (List.countP_congr fun e _ => ?_)) hcount
  rw [decide_eq_true_iff, Function.comp_apply, beq_iff_eq]

theorem Inv.served (h : Inv calls s) : Served calls s := by
  have hnodup : (s.handled.map (·.1)).Nodup := by
    rw [h.order]
    exact List.nodup_range
  refine ⟨fun j => length_filter_le_one hnodup j, fun j resp hresp => ?_⟩
  obtain ⟨m, x, hm, hrun, rfl⟩ := h.own j resp hresp
  refine ⟨m, x, hm, ?_, rfl⟩
  have hmem : (j, x) ∈ s.handled.filter (·.1 = j) :=
    List.mem_filter.mpr ⟨List.mem_of_getElem? hrun, by simp⟩
  have hlen := length_filter_le_one hnodup j
  rcases hf : s.handled.filter (·.1 = j) with _ | ⟨e, _ | ⟨e', rest⟩⟩
  · rw [hf] at hmem
    cases hmem
  · rw [hf] at hmem
    rw [List.mem_singleton.mp hmem]
    exact hf
  · rw [hf] at hlen
    simp at hlen

/-! ## The end can be reached -/

/-- How far the server is from having the response of the current call under its name. -/
def serverRank (s : State) : Nat :=
  if s.handled.length = s.returned.length then
    match s.server with
    | .opened k => if k + 1 = s.handled.length then 8 else 6
    | .polling => 7
    | _ => 5
  else
    match s.server with
    | .responding _ => 4
    | .writing _ => 3
    | _ => 2

def rank (s : State) : Nat :=
  match s.client with
  | .ready => 20
  | .created => 19
  | .waiting => 10 + serverRank s
  | .reading _ => 1 + serverRank s
  | .received _ => 0

def remaining (calls : List Msg) (s : State) : Nat :=
  30 * (calls.length - s.returned.length) + rank s

theorem Inv.returned_le (h : Inv calls s) : s.returned.length ≤ calls.length := by
  by_contra hlt
  obtain ⟨m, x, hm, -⟩ := h.own calls.length _ (List.getElem?_eq_getElem (not_le.mp hlt))
  rw [List.getElem?_eq_none le_rfl] at hm
  cases hm

theorem Inv.progress_waiting (h : Inv calls s) (hfresh : FreshIDs calls)
    (hclient : s.client = .waiting) :
    ∃ s', Step calls s s' ∧ remaining calls s' < remaining calls s := by
  obtain ⟨hreq, hwritten, hle, hle', hmore⟩ := h.clientAt hclient
  dsimp only at hreq hwritten hle hle' hmore
  obtain ⟨m, hm⟩ : ∃ m, calls[s.returned.length]? = some m := ⟨_, List.getElem?_eq_getElem hmore⟩
  -- once the response has its name, the client opens it
  have hopen (hlen : s.handled.length = s.returned.length + 1)
      (hresp : ∀ id, s.resp id = lastOnly calls s.handled.length id) :
      ∃ s', Step calls s s' ∧ remaining calls s' < remaining calls s := by
    have hown : s.resp m.id = some s.returned.length := by
      rw [hresp, lastOnly, hlen, lastSeen_of_getElem? hm, if_pos rfl]
      rfl
    refine ⟨_, .openResp hclient hm hown, ?_⟩
    have hne : ¬s.handled.length = s.returned.length := by omega
    simp only [remaining, rank, hclient, serverRank, if_neg hne]
    split <;> omega
  cases hserver : s.server with
  | polling =>
    have hs := h.serverAt hserver
    rcases Nat.eq_or_lt_of_le hle with hlen | hlt
    · refine ⟨_, .openReq hserver hreq, ?_⟩
      have hne : ¬s.returned.length + 1 = s.handled.length := by omega
      simp only [remaining, rank, hclient, serverRank, hserver, if_pos hlen.symm, if_neg hne]
      omega
    · exact hopen (by omega) hs.4
  | opened k =>
    obtain ⟨hs, hk⟩ := h.serverAt hserver
    have hlast := hs.2
    dsimp only at hlast hk
    rcases Nat.eq_or_lt_of_le hle with hlen | hlt
    · rcases hk with hk | ⟨hk, hk', -⟩
      · obtain ⟨a, ha⟩ : ∃ a, calls[k]? = some a := ⟨_, List.getElem?_eq_getElem (by omega)⟩
        rw [← hk, lastSeen_of_getElem? ha] at hlast
        refine ⟨_, .skip hserver (by omega) ha hlast, ?_⟩
        simp only [remaining, rank, hclient, serverRank, hserver, if_pos hlen.symm, if_pos hk]
        omega
      · have hnew : s.lastID ≠ some m.id := by
          rw [hlast, ← hk, hk']
          exact lastSeen_ne hfresh hm
        refine ⟨_, .accept hserver (by omega) (hk' ▸ hm) hnew, ?_⟩
        have hne : ¬k + 1 = s.handled.length := by omega
        simp only [remaining, rank, hclient, serverRank, hserver, if_pos hlen.symm, if_neg hne]
        omega
    · exact hopen (by omega) hs.4
  | accepted k =>
    obtain ⟨hk, hk', -⟩ := h.serverAt hserver
    dsimp only at hk hk'
    refine ⟨_, .handle .leave hserver, ?_⟩
    have hlen : s.handled.length = s.returned.length := by omega
    simp only [remaining, rank, hclient, serverRank, hserver, List.length_append,
      List.length_singleton, hlen, Nat.add_eq_left, Nat.one_ne_zero, if_true, if_false]
    omega
  | responding k =>
    obtain ⟨hk, hk', -, hresp⟩ := h.serverAt hserver
    dsimp only at hk hk' hresp
    refine ⟨_, .createResp hserver (hk' ▸ hm) (hresp _), ?_⟩
    have hne : ¬s.handled.length = s.returned.length := by omega
    simp only [remaining, rank, hclient, serverRank, hserver, if_neg hne]
    omega
  | writing k =>
    obtain ⟨hk, hk', -, hresp⟩ := h.serverAt hserver
    dsimp only at hk hk' hresp
    exact hopen (by omega) hresp

theorem Inv.exists_progress (h : Inv calls s) (hfresh : FreshIDs calls)
    (hmore : s.returned.length ≠ calls.length) :
    ∃ s', Step calls s s' ∧ remaining calls s' < remaining calls s := by
  have hlt : s.returned.length < calls.length := lt_of_le_of_ne h.returned_le hmore
  cases hclient : s.client with
  | ready =>
    obtain ⟨hreq, -, -⟩ := h.clientAt hclient
    refine ⟨_, .create hclient hlt hreq, ?_⟩
    simp only [remaining, rank, hclient]
    omega
  | created =>
    obtain ⟨-, -, hlen, -⟩ := h.clientAt hclient
    refine ⟨_, .close hclient, ?_⟩
    simp only [remaining, rank, hclient, serverRank]
    split_ifs <;> split <;> (try split_ifs) <;> omega
  | waiting => exact h.progress_waiting hfresh hclient
  | reading i =>
    obtain ⟨-, -, hi, hlen, -⟩ := h.clientAt hclient
    dsimp only at hi hlen
    obtain ⟨m, hm⟩ : ∃ m, calls[s.returned.length]? = some m := ⟨_, List.getElem?_eq_getElem hlt⟩
    have hne : ¬s.handled.length = s.returned.length := by omega
    have hread (hanswered : s.answered = s.handled.length) :
        ∃ s', Step calls s s' ∧ remaining calls s' < remaining calls s := by
      obtain ⟨⟨k, x⟩, hrun⟩ : ∃ e, s.handled[i]? = some e :=
        ⟨_, List.getElem?_eq_getElem (by omega)⟩
      have hk := h.call_of_run hrun
      refine ⟨_, .readResp hclient (by omega) hrun (by rw [hk, hi]; exact hm), ?_⟩
      simp only [remaining, rank, hclient]
      omega
    cases hserver : s.server with
    | polling => exact hread (h.serverAt hserver).1
    | opened k => exact hread (h.serverAt hserver).1.1
    | accepted k => exact hread (h.serverAt hserver).2.2.2.1
    | responding k =>
      obtain ⟨hk, hk', -, hresp⟩ := h.serverAt hserver
      dsimp only at hk hk' hresp
      refine ⟨_, .createResp hserver (hk' ▸ hm) (hresp _), ?_⟩
      simp only [remaining, rank, hclient, serverRank, hserver, if_neg hne]
      omega
    | writing k =>
      obtain ⟨hk, hk', -⟩ := h.serverAt hserver
      dsimp only at hk hk'
      refine ⟨_, .closeResp hserver (hk' ▸ hm), ?_⟩
      simp only [remaining, rank, hclient, serverRank, hserver, if_neg hne]
      omega
  | received resp =>
    refine ⟨_, .ret hclient, ?_⟩
    simp only [remaining, rank, hclient, List.length_append, List.length_singleton]
    omega

theorem Inv.can_finish (h : Inv calls s) (hfresh : FreshIDs calls) :
    ∃ s', ReflTransGen (Step calls) s s' ∧ s'.returned.length = calls.length :=
  exists_run_of_measure (remaining calls) (fun hs hstep => Inv.step hfresh hs hstep)
    (fun hs hmore => Inv.exists_progress hs hfresh hmore) h

/-! ## Equal ids -/

theorem getElem?_of_take (h : (calls.take n)[i]? = some m) : calls[i]? = some m := by
  rw [List.getElem?_take] at h
  split_ifs at h
  exact h

theorem Step.of_take (h : Step (calls.take n) s s') : Step calls s s' := by
  cases h with
  | create hclient hmore hfree =>
    exact .create hclient (hmore.trans_le (List.length_take_le' ..)) hfree
  | close hclient => exact .close hclient
  | openResp hclient hm hresp => exact .openResp hclient (getElem?_of_take hm) hresp
  | readResp hclient hclosed hrun hm => exact .readResp hclient hclosed hrun (getElem?_of_take hm)
  | ret hclient => exact .ret hclient
  | openReq hserver hreq => exact .openReq hserver hreq
  | skip hserver hclosed hm hlast => exact .skip hserver hclosed (getElem?_of_take hm) hlast
  | accept hserver hclosed hm hlast => exact .accept hserver hclosed (getElem?_of_take hm) hlast
  | handle x hserver => exact .handle x hserver
  | createResp hserver hm hfree => exact .createResp hserver (getElem?_of_take hm) hfree
  | closeResp hserver hm => exact .closeResp hserver (getElem?_of_take hm)

theorem exists_first_repeat (h : ¬FreshIDs calls) :
    ∃ i a b, calls[i]? = some a ∧ calls[i + 1]? = some b ∧ a.id = b.id ∧
      FreshIDs (calls.take (i + 1)) := by
  classical
  have hex : ∃ i, ∃ a b, calls[i]? = some a ∧ calls[i + 1]? = some b ∧ a.id = b.id := by
    unfold FreshIDs at h
    push Not at h
    exact h
  obtain ⟨a, b, ha, hb, hid⟩ := Nat.find_spec hex
  refine ⟨Nat.find hex, a, b, ha, hb, hid, fun j c d hc hd heq => ?_⟩
  have hj : j + 1 < Nat.find hex + 1 := by
    rw [List.getElem?_take] at hd
    split_ifs at hd with hlt
    exact hlt
  exact Nat.find_min hex (by omega) ⟨c, d, getElem?_of_take hc, getElem?_of_take hd, heq⟩

theorem Inv.finished (h : Inv calls s) (hdone : s.returned.length = calls.length) :
    s.client = .ready ∧ s.req = none ∧ s.handled.length = s.returned.length ∧
      s.answered = s.handled.length ∧ ∀ id, s.resp id = lastOnly calls s.handled.length id := by
  cases hclient : s.client with
  | ready =>
    obtain ⟨hreq, hwritten, hlen⟩ := h.clientAt hclient
    dsimp only at hreq hwritten hlen
    refine ⟨rfl, hreq, hlen, ?_⟩
    cases hserver : s.server with
    | polling => exact ⟨(h.serverAt hserver).1, (h.serverAt hserver).4⟩
    | opened k => exact ⟨(h.serverAt hserver).1.1, (h.serverAt hserver).1.4⟩
    | accepted k =>
      obtain ⟨hk, -, hlt, -⟩ := h.serverAt hserver
      dsimp only at hk hlt
      omega
    | responding k =>
      obtain ⟨hk, hk', -⟩ := h.serverAt hserver
      dsimp only at hk hk'
      omega
    | writing k =>
      obtain ⟨hk, hk', -⟩ := h.serverAt hserver
      dsimp only at hk hk'
      omega
  | created => exact absurd hdone (h.clientAt hclient).2.2.2.ne
  | waiting => exact absurd hdone (h.clientAt hclient).2.2.2.2.ne
  | reading i => exact absurd hdone (h.clientAt hclient).2.2.2.2.ne
  | received resp => exact absurd hdone (h.clientAt hclient).2.2.2.1.ne

/-- A call with the id of the call before it finds that call's response, and may be over before the
server has seen its request. -/
theorem exists_stale {a b : Msg} (ha : calls[i]? = some a) (hb : calls[i + 1]? = some b)
    (hid : a.id = b.id) (h : Inv (calls.take (i + 1)) s) (hdone : s.returned.length = i + 1) :
    ∃ s', ReflTransGen (Step calls) s s' ∧ s'.handled = s.handled ∧
      s'.returned.length = i + 2 := by
  have hi : i + 1 < calls.length := (List.getElem?_eq_some_iff.mp hb).1
  have htake : (calls.take (i + 1)).length = i + 1 := by
    rw [List.length_take]
    omega
  obtain ⟨hclient, hreq, hlen, hanswered, hresp⟩ := h.finished (hdone.trans htake.symm)
  have hstale : s.resp b.id = some i := by
    have hai : (calls.take (i + 1))[i]? = some a := by
      rw [List.getElem?_take, if_pos (Nat.lt_succ_self i), ha]
    rw [hresp, lastOnly, hlen, hdone, lastSeen_of_getElem? hai, hid, if_pos rfl]
    rfl
  obtain ⟨⟨k, x⟩, hrun⟩ : ∃ e, s.handled[i]? = some e :=
    ⟨_, List.getElem?_eq_getElem (by omega)⟩
  have hk : calls[k]? = some a := by rw [h.call_of_run hrun, ha]
  have hb' : calls[s.returned.length]? = some b := by rw [hdone, hb]
  have hmore : s.returned.length < calls.length := by omega
  have hclosed : i < s.answered := by omega
  have h₁ := ReflTransGen.single (Step.create hclient hmore hreq)
  have h₂ := h₁.tail (.close rfl)
  have h₃ := h₂.tail (.openResp rfl hb' hstale)
  have h₄ := h₃.tail (.readResp rfl hclosed hrun hk)
  have h₅ := h₄.tail (.ret rfl)
  refine ⟨_, h₅, rfl, ?_⟩
  simp only [List.length_append, List.length_singleton]
  omega

/-- Each call is handled exactly once and returns its own response, in every interleaving, exactly
if no call has the id of the call before it. -/
theorem exactlyOnce_iff (calls : List Msg) : ExactlyOnce calls ↔ FreshIDs calls := by
  constructor
  · intro hexact
    by_contra hfresh
    obtain ⟨i, a, b, ha, hb, hid, hprefix⟩ := exists_first_repeat hfresh
    have htake : (calls.take (i + 1)).length = i + 1 := by
      have := (List.getElem?_eq_some_iff.mp hb).1
      rw [List.length_take]
      omega
    -- the calls before the repetition are served as usual
    obtain ⟨s, hrun, hdone⟩ := (inv_init (calls.take (i + 1))).can_finish hprefix
    have hinv : Inv (calls.take (i + 1)) s := Reachable.inv hprefix hrun
    have hruns := (hinv.finished hdone).2.2.1
    obtain ⟨s', hrun', hhandled, hlen⟩ := exists_stale ha hb hid hinv (hdone.trans htake)
    have hfirst : ReflTransGen (Step calls) .init s :=
      ReflTransGen.mono (fun _ _ h => Step.of_take h) _ _ hrun
    obtain ⟨m, x, -, hfilter, -⟩ := (hexact s' (hfirst.trans hrun')).1.own (i + 1) _
      (List.getElem?_eq_getElem (by omega))
    have hmem : (i + 1, x) ∈ s'.handled.filter (·.1 = i + 1) := by
      rw [hfilter]
      exact List.mem_singleton_self _
    have hrange : i + 1 ∈ s.handled.map (·.1) :=
      List.mem_map.mpr ⟨_, hhandled ▸ List.mem_of_mem_filter hmem, rfl⟩
    rw [hinv.order, List.mem_range] at hrange
    omega
  · intro hfresh s hreach
    have hinv := Reachable.inv hfresh hreach
    exact ⟨hinv.served, hinv.can_finish hfresh⟩

def repeatedID : List Msg := [⟨7, .getOwnAddr ⟨[], Data.length_nil_lt⟩⟩, ⟨7, .leave⟩]

def ownAddr : Event := .getOwnAddr ⟨Bytes.ascii "/ip4/127.0.0.1", by decide⟩

/-- The second call returns what the handler said to the first one, and the handler
never sees it. -/
theorem stale_response :
    ∃ s, Reachable repeatedID s ∧ s.handled = [(0, ownAddr)] ∧
      s.returned = [⟨7, ownAddr⟩, ⟨7, ownAddr⟩] ∧ ¬Served repeatedID s := by
  -- the first call
  have h₁ := ReflTransGen.single (@Step.create repeatedID .init rfl (by decide) rfl)
  have h₂ := h₁.tail (.close rfl)
  have h₃ := h₂.tail (.openReq rfl rfl)
  have h₄ := h₃.tail (.accept rfl (by decide) rfl nofun)
  have h₅ := h₄.tail (.handle ownAddr rfl)
  have h₆ := h₅.tail (.createResp rfl rfl rfl)
  have h₇ := h₆.tail (.closeResp rfl rfl)
  have h₈ := h₇.tail (.openResp rfl rfl rfl)
  have h₉ := h₈.tail (.readResp rfl (by decide) rfl rfl)
  have h₁₀ := h₉.tail (.ret rfl)
  -- the second call finds the response of the first
  have h₁₁ := h₁₀.tail (.create rfl (by decide) rfl)
  have h₁₂ := h₁₁.tail (.close rfl)
  have h₁₃ := h₁₂.tail (.openResp rfl rfl rfl)
  have h₁₄ := h₁₃.tail (.readResp rfl (by decide) rfl rfl)
  have h₁₅ := h₁₄.tail (.ret rfl)
  refine ⟨_, h₁₅, rfl, rfl, fun hserved => ?_⟩
  obtain ⟨m, x, -, hfilter, -⟩ := hserved.own 1 ⟨7, ownAddr⟩ rfl
  cases hfilter

end KvRaft.Ipc
