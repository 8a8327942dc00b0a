import KvRaft.Ipc.Abandon
import KvRaft.Ipc.ExactlyOnce

/-! # Calls that are not given up

`Ipc/Abandon` follows the bytes of a response and lets a call end at any point; `Ipc/Protocol` has
neither, and keeps what is asked and answered instead. As long as no call is given up, the first
goes through states of the second. -/

namespace KvRaft.Ipc.Abandon

open Shmevent Relation

def Client.Shows (cl : Client) (p : Ipc.State) : Prop :=
  match cl with
  | .ready => p.client = .ready ∧ p.req = none ∧ p.written = p.returned.length
  | .created k => p.client = .created ∧ p.returned.length = k ∧ p.req = some k ∧ p.written = k
  | .waiting k => p.client = .waiting ∧ p.returned.length = k ∧ p.req = some k ∧ p.written = k + 1
  | .reading k h =>
    p.client = .reading h ∧ p.returned.length = k ∧ p.req = some k ∧ p.written = k + 1

/-- The response that is being written is the last one, and the only one that is not closed. Between
two responses the last one is pending. -/
def Server.Shows (c : Calls) (s : State) (p : Ipc.State) : Prop :=
  match s.server with
  | .polling =>
    p.server = .polling ∧ p.answered = s.responses ∧
      ∀ r, s.resp = some r → p.pendingResp = some (c.id r.call)
  | .opened k =>
    p.server = .opened k ∧ p.answered = s.responses ∧
      (∀ r, s.resp = some r → p.pendingResp = some (c.id r.call)) ∧
      k < s.calls ∧ (s.closed k = true ∨ s.client = .created k)
  | .accepted k => p.server = .accepted k ∧ p.answered = s.responses ∧ k < s.calls
  | .writing k _ _ =>
    p.server = .writing k ∧ p.answered + 1 = s.responses ∧
      s.resp = some ⟨p.answered, k⟩ ∧ k < s.calls

/-- `p` is a state of a run of these calls, at the point where `s` is. -/
structure Shows (c : Calls) (calls : List Msg) (s : State) (p : Ipc.State) : Prop where
  reachable : Reachable calls p
  client : s.client.Shows p
  server : Server.Shows c s p
  calls : s.calls = p.returned.length + if s.client = .ready then 0 else 1
  closed : ∀ k, s.closed k = true ↔ k < p.written
  responses : p.handled.length = s.responses
  handled : ∀ e ∈ p.handled, e.1 < s.calls
  resp : ∀ id, p.resp id = (s.resp.filter fun r => c.id r.call = id).map Response.no
  lastID : p.lastID = s.lastID

theorem shows_init (c : Calls) (calls : List Msg) : Shows c calls .init .init where
  reachable := .refl
  client := ⟨rfl, rfl, rfl⟩
  server := ⟨rfl, rfl, nofun⟩
  calls := rfl
  closed _ := iff_of_false nofun (Nat.not_lt_zero _)
  responses := rfl
  handled := nofun
  resp _ := rfl
  lastID := rfl

section Steps

variable {c : Calls} {calls : List Msg} {s s' : State} {p : Ipc.State} {a : Act}

def Describes (c : Calls) (calls : List Msg) : Prop := ∀ k m, calls[k]? = some m → c.id k = m.id

theorem exists_msg (hids : Describes c calls) {k : Nat} (hk : k < s.calls)
    (hcalls : s.calls ≤ calls.length) :
    ∃ m, calls[k]? = some m ∧ m.id = c.id k :=
  ⟨_, List.getElem?_eq_getElem (hk.trans_le hcalls),
    (hids k _ (List.getElem?_eq_getElem (hk.trans_le hcalls))).symm⟩

theorem Server.Shows.of_client (h : Server.Shows c s p) {p' : Ipc.State}
    (hserver : s'.server = s.server)
    (hresp : s'.resp = s.resp) (hresponses : s'.responses = s.responses)
    (hcalls : s.calls ≤ s'.calls)
    (hlive : ∀ k, s.closed k = true ∨ s.client = .created k → s'.closed k = true ∨
      s'.client = .created k)
    (hp : p'.server = p.server) (hanswered : p'.answered = p.answered)
    (hpending : p'.pendingResp = p.pendingResp) :
    Server.Shows c s' p' := by
  unfold Server.Shows at h ⊢
  rw [hserver, hresp, hresponses, hp, hanswered, hpending]
  cases hs : s.server with
  | polling =>
    rw [hs] at h
    exact h
  | opened k =>
    rw [hs] at h
    obtain ⟨h₁, h₂, h₃, hk, h₄⟩ := h
    exact ⟨h₁, h₂, h₃, hk.trans_le hcalls, hlive k h₄⟩
  | accepted k =>
    rw [hs] at h
    exact ⟨h.1, h.2.1, h.2.2.trans_le hcalls⟩
  | writing k put got =>
    rw [hs] at h
    exact ⟨h.1, h.2.1, h.2.2.1, h.2.2.2.trans_le hcalls⟩

theorem Shows.step_client (h : Shows c calls s p) (hinv : Inv c s) (hids : Describes c calls)
    (hcalls : s'.calls ≤ calls.length) (hstep : Step c s a s')
    (ha : a ∈ [Act.create, .closeReq, .openResp, .drain, .finish]) : ∃ p', Shows c calls s' p' := by
  have hclient := h.client
  have hserver := h.server
  unfold Client.Shows at hclient
  cases hstep with
  | create hready =>
    rw [hready] at hclient
    obtain ⟨hp, hreq, hwritten⟩ := hclient
    have hlen := h.calls
    rw [if_pos hready, Nat.add_zero] at hlen
    exact ⟨_, { h with
      reachable := h.reachable.tail (.create hp (by rw [← hlen]; exact hcalls) hreq)
      client := ⟨rfl, hlen.symm, congrArg some hlen.symm, hwritten.trans hlen.symm⟩
      server := hserver.of_client rfl rfl rfl (Nat.le_succ _)
        (fun k hk => .inl (hk.resolve_right (by rw [hready]; nofun))) rfl rfl rfl
      calls := congrArg (· + 1) hlen
      handled := fun e he => (h.handled e he).trans (Nat.lt_succ_self _) }⟩
  | @closeReq k hcreated hroom =>
    rw [hcreated] at hclient
    obtain ⟨hp, hlen, hreq, hwritten⟩ := hclient
    have hclosed (j : Nat) : Function.update s.closed k true j = true ↔
        j < p.returned.length + 1 := by
      by_cases hjk : j = k
      · subst hjk
        exact iff_of_true (Function.update_self ..) (by omega)
      · rw [Function.update_of_ne hjk, h.closed]
        omega
    refine ⟨_, { h with
      reachable := h.reachable.tail (.close hp)
      client := ⟨rfl, hlen, hreq, congrArg (· + 1) hlen⟩
      server := hserver.of_client rfl rfl rfl le_rfl (fun j hj => .inl ?_) rfl rfl rfl
      calls := h.calls.trans (by rw [hcreated]; rfl)
      closed := hclosed }⟩
    rcases hj with hj | hj
    · exact (hclosed j).mpr (by have := (h.closed j).mp hj; omega)
    · cases hcreated.symm.trans hj
      exact Function.update_self ..
  | @openResp k r hwaiting hresp hname =>
    rw [hwaiting] at hclient
    obtain ⟨hp, hlen, hreq, hwritten⟩ := hclient
    have hk : k < s.calls := hinv.current k (by rw [hwaiting]; rfl)
    obtain ⟨m, hm, hid⟩ := exists_msg hids hk hcalls
    have hseg : p.resp m.id = some r.no := by
      rw [h.resp, hresp, Option.filter_some_pos (by simp [hname, hid])]
      rfl
    exact ⟨_, { h with
      reachable := h.reachable.tail (.openResp hp (by rw [hlen]; exact hm) hseg)
      client := ⟨rfl, hlen, hreq, hwritten⟩
      server := hserver.of_client rfl rfl rfl le_rfl
        (fun k hk => .inl (hk.resolve_right (by rw [hwaiting]; nofun))) rfl rfl rfl
      calls := h.calls.trans (by rw [hwaiting]; rfl) }⟩
  | @drain k j put got n r hreading hwriting hresp hmore hput =>
    unfold Server.Shows at hserver
    rw [hwriting] at hserver
    exact ⟨p, { h with server := hserver }⟩
  | @finish k no hreading hclosed =>
    rw [hreading] at hclient
    obtain ⟨hp, hlen, hreq, hwritten⟩ := hclient
    have hno := hinv.read k no hreading
    have hrun : no < p.handled.length := h.responses.symm ▸ hno
    obtain ⟨m, hm, -⟩ := exists_msg hids (h.handled _ (List.getElem_mem hrun)) hcalls
    have hanswered : no < p.answered := by
      unfold Server.Shows at hserver
      cases hs : s.server with
      | writing j put got =>
        rw [hs] at hserver
        obtain ⟨-, hanswered, hresp, -⟩ := hserver
        have hne : p.answered ≠ no := hclosed _ _ _ _ hs hresp
        omega
      | _ =>
        rw [hs] at hserver
        obtain ⟨-, hanswered, -⟩ := hserver
        omega
    have hread : Ipc.Step calls p _ := .readResp hp hanswered (List.getElem?_eq_getElem hrun) hm
    have hbegun := h.calls
    rw [hreading] at hbegun
    exact ⟨_, { h with
      reachable := (h.reachable.tail hread).tail (.ret rfl)
      client := ⟨rfl, rfl, by rw [hwritten, ← hlen]; simp⟩
      server := hserver.of_client rfl rfl rfl le_rfl
        (fun k hk => .inl (hk.resolve_right (by rw [hreading]; nofun))) rfl rfl rfl
      calls := by simpa using hbegun }⟩
  | _ => simp at ha

theorem Shows.step_server (h : Shows c calls s p) (hinv : Inv c s) (hids : Describes c calls)
    (hcalls : s'.calls ≤ calls.length) (hstep : Step c s a s')
    (ha : a ∈ [Act.openReq, .skip, .discard, .accept, .createResp, .put, .closeResp]) :
    ∃ p', Shows c calls s' p' := by
  have hserver := h.server
  unfold Server.Shows at hserver
  cases hstep with
  | @openReq k hpolling hreq =>
    rw [hpolling] at hserver
    obtain ⟨hp, hanswered, hpending⟩ := hserver
    have hname : p.req = some k := by
      have hclient := h.client
      unfold Client.Shows at hclient
      cases hc : s.client <;> rw [hc] at hclient hreq <;> cases hreq <;> exact hclient.2.2.1
    have hlive : s.closed k = true ∨ s.client = .created k := by
      by_cases hc : s.client = .created k
      · exact .inr hc
      · exact .inl ((hinv.closed_iff k hreq).mpr hc)
    exact ⟨_, { h with
      reachable := h.reachable.tail (.openReq hp hname)
      server := ⟨rfl, hanswered, hpending, hinv.current k hreq, hlive⟩ }⟩
  | @skip k hopened hclosed hlast =>
    rw [hopened] at hserver
    obtain ⟨hp, hanswered, hpending, hk, -⟩ := hserver
    obtain ⟨m, hm, hid⟩ := exists_msg hids hk hcalls
    exact ⟨_, { h with
      reachable := h.reachable.tail
        (.skip hp ((h.closed k).mp hclosed) hm (by rw [h.lastID, hlast, hid]))
      server := ⟨rfl, hanswered, hpending⟩ }⟩
  | @discard k hopened hclosed hgone =>
    rw [hopened] at hserver
    obtain ⟨-, -, -, -, hlive⟩ := hserver
    rw [hclosed] at hlive
    exact absurd (hlive.resolve_left nofun) hgone
  | @accept k hopened hclosed hlast =>
    rw [hopened] at hserver
    obtain ⟨hp, hanswered, hpending, hk, -⟩ := hserver
    obtain ⟨m, hm, hid⟩ := exists_msg hids hk hcalls
    have hgone (id : UInt16) : p.cleanupPending id = none := by
      unfold State.cleanupPending
      split_ifs with hname
      · rfl
      rw [h.resp]
      cases hr : s.resp with
      | none => rfl
      | some r =>
        rw [Option.filter_some_neg, Option.map_none]
        exact decide_eq_false fun hcall => hname (by rw [hpending r hr, hcall])
    exact ⟨_, { h with
      reachable := h.reachable.tail
        (.accept hp ((h.closed k).mp hclosed) hm (by rw [h.lastID, hid]; exact hlast))
      server := ⟨rfl, hanswered, hk⟩
      resp := hgone }⟩
  | @createResp k haccepted =>
    have hkept := hinv.kept
    unfold Kept at hkept
    rw [haccepted] at hserver hkept
    obtain ⟨hp, hanswered, hk⟩ := hserver
    obtain ⟨m, hm, hid⟩ := exists_msg hids hk hcalls
    have hfree (id : UInt16) : p.resp id = none := by
      rw [h.resp, hkept]
      rfl
    have hhandle : Ipc.Step calls p _ := .handle .leave hp
    refine ⟨_, { h with
      reachable := (h.reachable.tail hhandle).tail (.createResp rfl hm (hfree _))
      server := ⟨rfl, congrArg (· + 1) hanswered, by rw [hanswered], hk⟩
      responses := by simp [h.responses]
      handled := ?_
      resp := fun id => ?_ }⟩
    · intro e he
      rcases List.mem_append.mp he with he | he
      · exact h.handled e he
      · cases List.mem_singleton.mp he
        exact hk
    · change (if id = m.id then some ((p.handled ++ [(k, Event.leave)]).length - 1)
        else p.resp id) = _
      rw [hfree, List.length_append, h.responses, hid]
      by_cases hname : c.id k = id
      · rw [if_pos hname.symm, Option.filter_some_pos (by simpa using hname)]
        rfl
      · rw [if_neg (Ne.symm hname), Option.filter_some_neg (by simpa using hname)]
        rfl
  | @put k put got n hwriting hmore hsize hroom =>
    rw [hwriting] at hserver
    exact ⟨p, { h with server := hserver }⟩
  | @closeResp k put got hwriting hall =>
    rw [hwriting] at hserver
    obtain ⟨hp, hanswered, hresp, hk⟩ := hserver
    obtain ⟨m, hm, hid⟩ := exists_msg hids hk hcalls
    refine ⟨_, { h with
      reachable := h.reachable.tail (.closeResp hp hm)
      server := ⟨rfl, h.responses, fun r hr => ?_⟩
      lastID := congrArg some hid }⟩
    cases hresp.symm.trans hr
    exact congrArg some hid
  | _ => simp at ha

/-- A step that gives up nothing is some steps of `Ipc/Protocol`. -/
theorem Shows.step (h : Shows c calls s p) (hinv : Inv c s) (hids : Describes c calls)
    (hcalls : s'.calls ≤ calls.length) (hstep : Step c s a s') (hgive : a ≠ .giveUp) :
    ∃ p', Shows c calls s' p' := by
  by_cases ha : a ∈ [Act.create, .closeReq, .openResp, .drain, .finish]
  · exact h.step_client hinv hids hcalls hstep ha
  · refine h.step_server hinv hids hcalls hstep ?_
    cases a <;> simp_all

theorem calls_le_of_step (hstep : Step c s a s') : s.calls ≤ s'.calls := by
  cases hstep with
  | create => exact Nat.le_succ _
  | _ => exact le_rfl

/-- A run in which no call is given up goes through states of `Ipc/Protocol`. -/
theorem exists_shows (hids : Describes c calls)
    (hrun : ReflTransGen (fun s s' => ∃ a, a ≠ .giveUp ∧ Step c s a s') .init s)
    (hcalls : s.calls ≤ calls.length) :
    Inv c s ∧ ∃ p, Shows c calls s p := by
  induction hrun with
  | refl => exact ⟨inv_init c, .init, shows_init c calls⟩
  | tail _ hstep ih =>
    obtain ⟨a, hgive, hstep⟩ := hstep
    obtain ⟨hinv, p, hp⟩ := ih ((calls_le_of_step hstep).trans hcalls)
    exact ⟨hinv.step hstep, hp.step hinv hids hcalls hstep hgive⟩

/-- As long as no call is given up and neighbouring ids differ, each call reads the response to its
own request. -/
theorem reads_own (hfresh : FreshIDs calls) (hids : Describes c calls)
    (hrun : ReflTransGen (fun s s' => ∃ a, a ≠ .giveUp ∧ Step c s a s') .init s)
    (hcalls : s.calls ≤ calls.length) {k h : Nat} (hreading : s.client = .reading k h) : h = k := by
  obtain ⟨-, p, hp⟩ := exists_shows hids hrun hcalls
  have hclient := hp.client
  rw [hreading] at hclient
  obtain ⟨hat, hlen, -⟩ := hclient
  have hinv := (hp.reachable.inv hfresh).client
  unfold ClientInv at hinv
  rw [hat] at hinv
  exact hinv.2.2.1.trans hlen

end Steps

end KvRaft.Ipc.Abandon
