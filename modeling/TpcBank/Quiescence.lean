import TpcBank.Disconnected
import TpcBank.LeaderLocks
import TpcBank.LeaderRounds
import TpcBank.Serializability
import TpcBank.Shards

/-! A bank with one leader in every cluster can be brought to rest. While no leader is
disconnected and calls are answered or end by their deadlines, there is a way on from every
state in which every transaction gets its decision, every decision reaches the leaders and they
unlock their clients, without a new request of the client. -/
namespace TpcBank
open Transition

instance {c : Constants} (L : Leaders c) (p : ℤ) : Decidable (L.Leads p) :=
  inferInstanceAs (Decidable (_ ∧ _))

namespace Network

variable {c : Constants} {L : Leaders c} {book : ℤ → Request} {n n' : Network} {e : Event}
  {p : ℤ}

/-! ### Decisions that have arrived -/

/-- The leaders are connected, have heeded the decisions that they have answered, and keep their
locks tidy. -/
structure Heedful (L : Leaders c) (n : Network) : Prop where
  connected : ∀ p, L.Leads p → (n.servers p).iAmDisconnected = false
  spared : ∀ src dst q, n.Sent src dst (.disconnect q) →
    ∀ name ∈ q.servers, ¬ L.Leads (Server.idOfName c name)
  heeded : ∀ p, L.Leads p → ∀ src isCommit r response,
    n.Answered src p (.decision isCommit r) response → (n.servers p).wal.pending r.tid = none
  tidy : ∀ p, L.Leads p → (n.servers p).Tidy c

theorem heedful_init (L : Leaders c) (disk : ℤ → Disk) : Heedful L (init c disk) where
  connected := fun _ _ => rfl
  spared := by
    rintro src dst q ⟨call, hmem, -⟩
    cases hmem
  heeded := fun _ _ _ _ _ _ _ => rfl
  tidy := fun p _ => Server.tidy_init c p (disk p)

/-- A connected leader forgets a transaction with its decision. -/
theorem pending_decided {s : Server} {fs : FileSystem} (hcluster : 0 < s.clusterId)
    (hconn : s.iAmDisconnected = false) (hfs : fs.working) (hindex : s.wal.Indexed)
    (isCommit : Bool) (r : TpcTid) :
    (s.react c fs (.request (.decision isCommit r))).server.wal.pending r.tid = none := by
  have hreact : (s.react c fs (.request (.decision isCommit r))).server =
      s.processTpcDecision c fs r isCommit := by
    cases isCommit <;> rfl
  rw [hreact]
  cases hp : s.wal.pending r.tid with
  | none => rw [Server.processTpcDecision_unknown isCommit hcluster hindex hp, hp]
  | some e =>
    obtain ⟨wal, -, hpending, heq⟩ :=
      Server.processTpcDecision_found (c := c) isCommit hconn hfs hindex hp
    have hupdate : wal.pending r.tid = none := by rw [hpending, Function.update_self]
    rw [heq]
    cases isCommit <;> exact hupdate

theorem Heedful.connected_step (h : Heedful L n) (hrouted : Routed c n) (hs : step c n e = some n')
    (hleads : L.Leads p) : (n'.servers p).iAmDisconnected = false := by
  cases (step_stepped hs).changeAt p with
  | same hserver =>
    rw [hserver]
    exact h.connected p hleads
  | handled fs input r hacts hr hserver =>
    by_cases hrequest : ∃ q, input = .request (.disconnect q)
    · obtain ⟨q, rfl⟩ := hrequest
      obtain ⟨src, hsent⟩ := hacts.request_sent
      rw [step_acts hs hacts, Function.update_self]
      refine List.any_eq_false.mpr fun name hname hid => ?_
      apply h.spared src p q hsent name hname
      rw [of_decide_eq_true hid, hrouted.serverId]
      exact hleads
    · rw [hserver, hr.iAmDisconnected fun q hq => hrequest ⟨q, hq⟩]
      exact h.connected p hleads

theorem Heedful.heeded_step (h : Heedful L n) (hled : SoleLed c L book n)
    (hfits : Fits c L book n) (hprov : Provenance c n) (hs : step c n e = some n')
    (hworking : e.working) (hsync : Each (Server.NoEntries L) n e)
    (hundecided : ∀ fs r isCommit, Acts n e p fs (.request (.tpcPrepare r)) →
      ¬ n.Decided isCommit r.tid) (hleads : L.Leads p) {src : Option ℤ} {isCommit : Bool}
    {r : TpcTid} {response : Response} (ha : n'.Answered src p (.decision isCommit r) response) :
    (n'.servers p).wal.pending r.tid = none := by
  have hstep := step_stepped hs
  rcases hstep.answered_before ha with hold | ⟨fs, r', hacts, hr, hserver, -⟩
  · have hnone := h.heeded p hleads src isCommit r response hold
    cases hstep.changeAt p with
    | same hserver => rw [hserver, hnone]
    | handled fs input r' hacts hr hserver =>
      have heffect := hled.effect hfits hprov hacts hr hleads hworking hsync
      rw [hserver]
      generalize r'.server.wal.pending = pending, r'.server.balances = balances,
        r'.response = response at heffect
      cases heffect with
      | kept => exact hnone
      | committed => exact hnone
      | prepared request =>
        by_cases htid : r.tid = request.tid
        · have hdecided : n.Decided isCommit r.tid := by
            have hsent := hold.sent
            rw [hprov.routed.src_of_fromClient hsent (by cases isCommit <;> rfl)] at hsent
            exact ⟨p, hsent⟩
          exact absurd (htid ▸ hdecided) (hundecided fs request isCommit hacts)
        · rwa [Function.update_of_ne htid]
      | decided isCommit' request =>
        by_cases htid : r.tid = request.tid
        · rw [htid, Function.update_self]
        · rwa [Function.update_of_ne htid]
  · rw [step_acts hs hacts, Function.update_self]
    refine pending_decided ?_ (h.connected p hleads) (hacts.working hworking) (hprov.indexed p)
      isCommit r
    rw [hprov.routed.clusterId]
    exact hleads.1

theorem Heedful.step (h : Heedful L n) (hled : SoleLed c L book n) (hfits : Fits c L book n)
    (hprov : Provenance c n) (hs : step c n e = some n') (he : ∀ dst request, e ≠ .call dst request)
    (hworking : e.working) (hsync : Each (Server.NoEntries L) n e)
    (hundecided : ∀ p fs r isCommit, Acts n e p fs (.request (.tpcPrepare r)) →
      ¬ n.Decided isCommit r.tid) : Heedful L n' where
  connected := fun p hleads => h.connected_step hprov.routed hs hleads
  heeded := fun p hleads src isCommit r response ha =>
    h.heeded_step hled hfits hprov hs hworking hsync (hundecided p) hleads ha
  spared := by
    intro src dst q hsent
    have hstep := step_stepped hs
    obtain rfl := (hprov.routed.step hstep).src_of_fromClient hsent rfl
    rcases hstep.client_before hsent with hold | ⟨heq, -⟩
    · exact h.spared none dst q hold
    · exact absurd heq (he dst _)
  tidy := fun p hleads =>
    hled.tidy hfits hprov (step_stepped hs) hworking hsync h.tidy hleads

end Network

/-- No leader is named as disconnected. -/
def Action.Spares {c : Constants} (L : Leaders c) : Action → Prop
  | .updateDisconnected servers => ∀ name ∈ servers, ¬ L.Leads (Server.idOfName c name)
  | _ => True

instance {c : Constants} (L : Leaders c) (a : Action) : Decidable (a.Spares L) :=
  match a with
  | .updateDisconnected servers =>
    inferInstanceAs (Decidable (∀ name ∈ servers, ¬ L.Leads (Server.idOfName c name)))
  | .processTransaction _ _ _ | .printBalance _ | .printDatastore | .deliver _ _
  | .complete _ _ _ => isTrue trivial

/-- The action is no request of the client. -/
def Action.issues : Action → Bool
  | .deliver _ _ | .complete _ _ _ => false
  | _ => true

namespace System

variable {c : Constants} {L : Leaders c} {as : List Action} {σ σ' : System} {a : Action}

/-- No call of a server ends with another error than its deadline, and no prepare call of the
client with any. -/
def Timely (σ : System) : Action → Prop
  | .complete i status fs => Network.Timely σ.network (.complete i status fs)
  | _ => True

instance (σ : System) (a : Action) : Decidable (Timely σ a) :=
  match a with
  | .complete i status fs =>
    inferInstanceAs (Decidable (Network.Timely σ.network (.complete i status fs)))
  | .processTransaction _ _ _ | .updateDisconnected _ | .printBalance _ | .printDatastore
  | .deliver _ _ => isTrue trivial

/-- An action of a bank that keeps in touch with its leaders. -/
structure Steady (L : Leaders c) (σ : System) (a : Action) : Prop where
  orderly : Orderly L σ a
  timely : Timely σ a
  spares : a.Spares L

/-- What holds of a bank that keeps in touch with its leaders. -/
structure Attended (L : Leaders c) (as : List Action) (σ : System) : Prop where
  sole : Sole L as σ
  tallied : Tallied c as σ
  paced : Network.Paced L σ.network
  heedful : Network.Heedful L σ.network
  ended : ∀ (i : ℕ) (call : Call), σ.network.calls[i]? = some call →
    call.request.isTpcPrepare = true → call.completed = true → okEnded as i = true

theorem attended_init (L : Leaders c) (disk : ℤ → Disk) : Attended L [] (init c disk) where
  sole := sole_init L disk
  tallied := tallied_init c disk
  paced := Network.paced_init L disk
  heedful := Network.heedful_init L disk
  ended := by
    intro i call hcall
    cases List.mem_of_getElem? hcall

/-- A prepare call that has not been answered is of a transaction that is not decided. -/
theorem Attended.undecided (h : Attended L as σ) {call : Call} (hmem : call ∈ σ.network.calls)
    (hnew : call.response = none) {request : TransferReq}
    (hrequest : call.request = .tpcPrepare request) (isCommit : Bool) :
    ¬ σ.network.Decided isCommit request.tid := by
  rintro ⟨dst, d, hmem', -, -, hreq⟩
  have hcoord := h.sole.banked.coordinated
  obtain ⟨i, hcall⟩ := List.mem_iff_getElem?.mp hmem
  obtain ⟨j, hj⟩ := List.mem_iff_getElem?.mp hmem'
  obtain ⟨i', a, b, hp, hi⟩ := hcoord.pairs i call request hcall hrequest
  obtain ⟨-, -, -, -, -, -, hclosed, -⟩ :=
    hcoord.decisions j d isCommit request.tid hj hreq hp.positive
  have hcompleted : call.completed = true := by
    obtain ⟨ha, hb⟩ := hp.tally.closed hclosed
    rcases hi with rfl | rfl
    · rwa [Option.some.inj (hcall.symm.trans hp.first)]
    · rwa [Option.some.inj (hcall.symm.trans hp.second)]
  obtain ⟨d', hd', -, hsome⟩ :=
    h.tallied.ended i (h.ended i call hcall (by rw [hrequest]; rfl) hcompleted)
  rw [Option.some.inj (hd'.symm.trans hcall), hnew] at hsome
  cases hsome

theorem heedful_send {n : Network} (calls : List OutCall) (h : Network.Heedful L n)
    (hcalls : ∀ o ∈ calls, ∀ q, o.request = .disconnect q →
      ∀ name ∈ q.servers, ¬ L.Leads (Server.idOfName c name)) :
    Network.Heedful L (send n calls) where
  connected := h.connected
  spared := by
    rintro src dst q ⟨call, hmem, hsrc, hdst, hrequest⟩
    rcases List.mem_append.mp hmem with hold | hnew
    · exact h.spared src dst q ⟨call, hold, hsrc, hdst, hrequest⟩
    · obtain ⟨o, ho, rfl⟩ := List.mem_map.mp hnew
      exact hcalls o ho q hrequest
  heeded := fun p hleads src isCommit r response ha =>
    h.heeded p hleads src isCommit r response (answered_send.mp ha)
  tidy := h.tidy

/-- A poll that has ended did so before, or ends in the action. -/
theorem Stepped.ended_before (h : Stepped c σ a σ') {i : ℕ} {call : Call}
    (hcall : σ'.network.calls[i]? = some call) (hpolled : call.request.polled.isSome = true)
    (hcompleted : call.completed = true) :
    ∃ b, σ.network.calls[i]? = some b ∧ Network.Later b call ∧
      (b.completed = true ∨ ∃ status fs, a = .complete i status fs) := by
  have hsend : ∀ {n : Network} {calls : List OutCall}, σ'.network = send n calls →
      n.calls[i]? = some call := by
    intro n calls hnetwork
    rw [hnetwork] at hcall
    rcases getElem?_send hcall with hold | ⟨l, o, -, -, rfl⟩
    · exact hold
    · cases hcompleted
  have hserver : ∀ {n : Network} {e : Event}, Network.Stepped c σ.network e n →
      (∀ dst request, e ≠ .call dst request) → n.calls[i]? = some call →
        ∃ b, σ.network.calls[i]? = some b ∧ Network.Later b call ∧
          (b.completed = true ∨ ∃ status fs, e = .complete i status fs) := by
    intro n e hn he hold
    rcases hn.earlier hold with ⟨b, hb, hlater⟩ | ⟨dst, request, rfl, -⟩ | ⟨-, hno⟩
    · refine ⟨b, hb, hlater, ?_⟩
      by_cases hends : ∃ status fs, e = .complete i status fs
      · exact .inr hends
      · left
        rw [← hn.completed_eq hb hold fun status fs heq => hends ⟨status, fs, heq⟩, hcompleted]
    · exact absurd rfl (he dst request)
    · obtain ⟨r, hr⟩ := Option.isSome_iff_exists.mp hpolled
      obtain ⟨x, hx⟩ := Request.poll_of_polled hr
      rw [hx] at hno
      cases x <;> cases hno
  have hquiet : ∀ {calls : List OutCall}, σ'.network = send σ.network calls →
      ∃ b, σ.network.calls[i]? = some b ∧ Network.Later b call ∧
        (b.completed = true ∨ ∃ status fs, a = .complete i status fs) :=
    fun hnetwork => ⟨call, hsend hnetwork, .refl call, .inl hcompleted⟩
  have hends : ∀ {n : Network} {j : ℕ} {status : Status} {fs : FileSystem},
      σ.network.step c (.complete j status fs) = some n → n.calls[i]? = some call →
        a = .complete j status fs → ∃ b, σ.network.calls[i]? = some b ∧ Network.Later b call ∧
          (b.completed = true ∨ ∃ status fs, a = .complete i status fs) := by
    rintro n j status fs hn hold rfl
    obtain ⟨b, hb, hlater, hdone⟩ := hserver (Network.step_stepped hn) (by simp) hold
    refine ⟨b, hb, hlater, hdone.imp_right ?_⟩
    rintro ⟨status', fs', heq⟩
    cases heq
    exact ⟨status, fs, rfl⟩
  cases h with
  | intra => exact hquiet rfl
  | cross => exact hquiet rfl
  | asked => exact hquiet rfl
  | delivered j fs n hn =>
    obtain ⟨b, hb, hlater, hdone⟩ := hserver (Network.step_stepped hn) (by simp) hcall
    refine ⟨b, hb, hlater, hdone.imp_right ?_⟩
    rintro ⟨status, fs', heq⟩
    cases heq
  | completed j status fs call' n _ _ hn => exact hends hn hcall rfl
  | consumed j status fs call' request n _ _ _ hn => exact hends hn (hsend rfl) rfl

/-- A prepare that arrives is not decided. -/
theorem Attended.undecided_acts (h : Attended L as σ) {e : Event} {p : ℤ} {fs : FileSystem}
    {r : TransferReq} (hacts : Network.Acts σ.network e p fs (.request (.tpcPrepare r)))
    (isCommit : Bool) : ¬ σ.network.Decided isCommit r.tid := by
  generalize hinput : Input.request (.tpcPrepare r) = input at hacts
  cases hacts with
  | deliver hcall hnew =>
    exact h.undecided (List.mem_of_getElem? hcall) hnew (Input.request.inj hinput).symm isCommit
  | complete => cases hinput

theorem Attended.network_step (h : Attended L as σ) (hs : step c σ a = some σ')
    (hsteady : Steady L σ a) : Network.Paced L σ'.network ∧ Network.Heedful L σ'.network := by
  obtain ⟨book, hfits, hled⟩ := h.sole.exists_book
  have hserver : ∀ {n : Network} {e : Event}, σ.network.step c e = some n → e.working →
      Network.Each (Server.NoEntries L) σ.network e → Network.Timely σ.network e →
        (∀ dst request, e ≠ .call dst request) → Network.Paced L n ∧ Network.Heedful L n := by
    intro n e hn hworking hsync htimely he
    have hprov := h.sole.banked.provenance
    exact ⟨h.paced.step hled hfits hprov hn htimely, h.heedful.step hled hfits hprov hn he
      hworking hsync fun p fs r isCommit hacts => h.undecided_acts hacts isCommit⟩
  by_cases hset : ∃ servers, a = .updateDisconnected servers
  · obtain ⟨servers, rfl⟩ := hset
    cases hs
    refine ⟨paced_send _ h.paced, heedful_send _ h.heedful fun o ho q hq => ?_⟩
    obtain ⟨s, -, rfl⟩ := List.mem_map.mp ho
    cases hq
    exact hsteady.spares
  obtain ⟨n, calls, hnetwork, hcalls, hn⟩ := step_calls hs fun servers heq => hset ⟨servers, heq⟩
  have hkept : Network.Paced L n ∧ Network.Heedful L n := by
    rcases hn with rfl | ⟨i, fs, rfl, hn⟩ | ⟨i, status, fs, rfl, hn⟩
    · exact ⟨h.paced, h.heedful⟩
    · exact hserver hn hsteady.orderly.working (each_deliver L _ i fs) trivial (by simp)
    · exact hserver hn hsteady.orderly.working hsteady.orderly.unsynced hsteady.timely (by simp)
  rw [hnetwork]
  exact ⟨paced_send calls hkept.1,
    heedful_send calls hkept.2 fun o ho q hq => absurd hq (hcalls o ho q)⟩

theorem Attended.step (h : Attended L as σ) (hs : step c σ a = some σ') (hsteady : Steady L σ a) :
    Attended L (as ++ [a]) σ' := by
  have hstep := step_stepped hs
  have horderly := hsteady.orderly
  obtain ⟨hpaced, hheedful⟩ := h.network_step hs hsteady
  refine ⟨h.sole.step hstep horderly, h.tallied.step hstep horderly.fresh, hpaced, hheedful, ?_⟩
  intro i call hcall hprepare hcompleted
  have hpolled : call.request.polled.isSome = true := by
    cases hrequest : call.request with
    | tpcPrepare => rfl
    | _ =>
      rw [hrequest] at hprepare
      cases hprepare
  rw [okEnded_snoc, Bool.or_eq_true]
  obtain ⟨b, hb, hlater, hbefore | ⟨status, fs, rfl⟩⟩ := hstep.ended_before hcall hpolled hcompleted
  · rw [hlater.request] at hprepare
    exact .inl (h.ended i b hb hprepare hbefore)
  · rw [hlater.request] at hprepare
    obtain rfl := (hsteady.timely b hb).2 hprepare
    exact .inr (decide_eq_true rfl)

theorem reaches_attended (L : Leaders c) {disk : ℤ → Disk}
    (h : Reaches c (fun σ a => Steady L σ a) disk as σ) : Attended L as σ := by
  induction h with
  | refl => exact attended_init L disk
  | snoc _ hsteady hs ih => exact ih.step hs hsteady

end System

/-! ### What is left to do -/

namespace Call

/-- What is left to do for a poll: its answer, and its end. -/
def pollWork (call : Call) : ℕ :=
  if call.request.polled.isSome then call.response.isNone.toNat + (!call.completed).toNat else 0

/-- What is left to do for a call: its answer where the client waits for it, and its end. -/
def work (call : Call) : ℕ :=
  (call.src.isNone && call.response.isNone).toNat + (!call.completed).toNat

variable {call : Call}

theorem pollWork_of_unpolled (h : call.request.polled = none) : call.pollWork = 0 := by
  simp [pollWork, h]

theorem work_completed (hopen : call.completed = false) :
    work { call with completed := true } < call.work := by
  simp [work, hopen]

theorem work_answered (hsrc : call.src = none) (hnew : call.response = none) (res : Response) :
    work { call with response := some res } < call.work := by
  simp [work, hsrc, hnew]

end Call

/-- One call of a table changes. -/
theorem sum_map_set {calls : List Call} (w : Call → ℕ) {i : ℕ} {b : Call} (b' : Call)
    (hb : calls[i]? = some b) :
    ((calls.set i b').map w).sum + w b = (calls.map w).sum + w b' := by
  induction calls generalizing i with
  | nil => cases hb
  | cons call calls ih =>
    cases i with
    | zero =>
      obtain rfl : call = b := by simpa using hb
      simp only [List.set_cons_zero, List.map_cons, List.sum_cons]
      omega
    | succ i =>
      have hrest := ih (by simpa using hb)
      simp only [List.set_cons_succ, List.map_cons, List.sum_cons]
      omega

namespace Network

variable {c : Constants} {L : Leaders c} {n n' : Network}

/-- How far the leaders are from the ends of their rounds. -/
noncomputable def stages (L : Leaders c) (n : Network) : ℕ :=
  ∑ k ∈ Finset.Icc 1 c.numClusters, (n.servers (L.leader k)).stage

/-- What is left to do: polls first, then the rounds of the leaders, then all calls. -/
noncomputable def left (L : Leaders c) (n : Network) : ℕ ×ₗ ℕ ×ₗ ℕ :=
  toLex ((n.calls.map Call.pollWork).sum, toLex (n.stages L, (n.calls.map Call.work).sum))

theorem left_lt_of_polls
    (h : (n'.calls.map Call.pollWork).sum < (n.calls.map Call.pollWork).sum) :
    n'.left L < n.left L :=
  Prod.Lex.toLex_lt_toLex.mpr (.inl h)

theorem left_lt_of_stages
    (hpolls : (n'.calls.map Call.pollWork).sum = (n.calls.map Call.pollWork).sum)
    (h : n'.stages L < n.stages L) : n'.left L < n.left L :=
  Prod.Lex.toLex_lt_toLex.mpr (.inr ⟨hpolls, Prod.Lex.toLex_lt_toLex.mpr (.inl h)⟩)

theorem left_lt_of_work
    (hpolls : (n'.calls.map Call.pollWork).sum = (n.calls.map Call.pollWork).sum)
    (hstages : n'.stages L = n.stages L)
    (h : (n'.calls.map Call.work).sum < (n.calls.map Call.work).sum) : n'.left L < n.left L :=
  Prod.Lex.toLex_lt_toLex.mpr
    (.inr ⟨hpolls, Prod.Lex.toLex_lt_toLex.mpr (.inr ⟨hstages, h⟩)⟩)

/-- A call that is no poll comes nearer to its end. -/
theorem left_lt_of_set {i : ℕ} {call call' : Call} (hcall : n.calls[i]? = some call)
    (hcalls : n'.calls = n.calls.set i call') (hstages : n'.stages L = n.stages L)
    (hpolled : call.request.polled = none) (hrequest : call'.request = call.request)
    (hwork : call'.work < call.work) : n'.left L < n.left L := by
  have hpolls := sum_map_set Call.pollWork call' hcall
  have hall := sum_map_set Call.work call' hcall
  rw [Call.pollWork_of_unpolled hpolled,
    Call.pollWork_of_unpolled ((congrArg Request.polled hrequest).trans hpolled)] at hpolls
  refine left_lt_of_work ?_ hstages ?_ <;> rw [hcalls] <;> omega

/-- One server acts. -/
theorem stages_congr {p : ℤ} {s : Server} (hservers : n'.servers = Function.update n.servers p s)
    (hs : s.stage = (n.servers p).stage) : n'.stages L = n.stages L := by
  refine Finset.sum_congr rfl fun k _ => ?_
  rw [hservers]
  by_cases hk : L.leader k = p
  · rw [hk, Function.update_self, hs]
  · rw [Function.update_of_ne hk]

/-- A leader takes its round further. -/
theorem stages_lt {k : ℤ} {s : Server} (hlow : 1 ≤ k) (hhigh : k ≤ c.numClusters)
    (hservers : n'.servers = Function.update n.servers (L.leader k) s)
    (hs : s.stage < (n.servers (L.leader k)).stage) : n'.stages L < n.stages L := by
  refine Finset.sum_lt_sum (fun j _ => ?_) ⟨k, Finset.mem_Icc.mpr ⟨hlow, hhigh⟩, ?_⟩
  · rw [hservers]
    by_cases hj : L.leader j = L.leader k
    · rw [hj, Function.update_self]
      exact hs.le
    · rw [Function.update_of_ne hj]
  · rw [hservers, Function.update_self]
    exact hs

/-- Polls are calls of the client. -/
theorem Routed.src_of_polled (h : Routed c n) {call : Call} (hmem : call ∈ n.calls)
    {r : TransferReq} (hpolled : call.request.polled = some r) : call.src = none := by
  obtain ⟨x, hx⟩ := Request.poll_of_polled hpolled
  exact h.src_of_fromClient ⟨call, hmem, rfl, rfl, hx⟩ (by cases x <;> rfl)

theorem pollWork_eq_zero {calls : List Call}
    (h : ∀ call ∈ calls, call.request.polled = none) : (calls.map Call.pollWork).sum = 0 := by
  rw [List.sum_eq_zero_iff]
  intro w hw
  obtain ⟨call, hmem, rfl⟩ := List.mem_map.mp hw
  exact Call.pollWork_of_unpolled (h call hmem)

end Network

namespace Server

variable {c : Constants} {fs : FileSystem} {s : Server}

theorem settle_stage (clientId amount : ℤ) (isCommit : Bool) :
    (s.settle c clientId amount isCommit).stage = s.stage := by
  unfold settle
  split_ifs <;> rfl

/-- What the client sends beside polls is answered at once, and concerns no round. -/
theorem proceed_unpolled (fs : FileSystem) {q : Request} (hclient : q.fromClient = true)
    (hpolled : q.polled = none) :
    (s.proceed c fs q).response.isSome = true ∧ (s.proceed c fs q).sent = [] ∧
      (s.proceed c fs q).server.stage = s.stage := by
  have hdecision : ∀ r isCommit, (s.processTpcDecision c fs r isCommit).stage = s.stage := by
    intro r isCommit
    unfold processTpcDecision
    split_ifs
    · rfl
    · simp only [settle_stage]
      rfl
    · simp only [settle_stage]
      rfl
  cases q with
  | tpcCommit r => exact ⟨rfl, rfl, hdecision r true⟩
  | tpcAbort r => exact ⟨rfl, rfl, hdecision r false⟩
  | balance => exact ⟨rfl, rfl, rfl⟩
  | logs => exact ⟨rfl, rfl, rfl⟩
  | disconnect => exact ⟨rfl, rfl, rfl⟩
  | transfer => cases hpolled
  | tpcPrepare => cases hpolled
  | _ => cases hclient

end Server

namespace System

variable {c : Constants} {L : Leaders c} {as : List Action} {σ σ' : System} {i : ℕ} {call : Call}

/-- A request arrives or a call ends, in a bank that keeps in touch with its leaders. -/
theorem steady_deliver (L : Leaders c) (σ : System) (i : ℕ) :
    Steady L σ (.deliver i .allOpen) where
  orderly := ⟨FileSystem.allOpen_working, trivial, trivial, trivial, trivial, trivial⟩
  timely := trivial
  spares := trivial

theorem step_delivers (hcall : σ.network.calls[i]? = some call) (hnew : call.response = none) :
    step c σ (.deliver i .allOpen) =
      some { σ with network := σ.network.deliver c i .allOpen call } := by
  simp [step, Network.step, hcall, hnew]

/-- There is a step that leaves less to do. -/
def Advances (L : Leaders c) (σ : System) : Prop :=
  ∃ a σ', step c σ a = some σ' ∧ (Steady L σ a ∧ a.issues = false) ∧
    σ'.network.left L < σ.network.left L

/-- A call of a server ends by its deadline. -/
theorem Attended.expires (h : Attended L as σ) (hcall : σ.network.calls[i]? = some call) {p : ℤ}
    (hsrc : call.src = some p) (hopen : call.completed = false) : σ.Advances L := by
  have hpolled : call.request.polled = none := by
    cases hp : call.request.polled with
    | none => rfl
    | some r =>
      rw [h.sole.banked.provenance.routed.src_of_polled (List.mem_of_getElem? hcall) hp] at hsrc
      cases hsrc
  obtain ⟨hsent, hstage⟩ := Server.react_deadlineExceeded (c := c)
    (s := σ.network.servers p) .allOpen call.request (call.response.getD .empty)
  have hcan : Network.canComplete call .deadlineExceeded = true := by
    simp [Network.canComplete, hopen]
  have hn : σ.network.step c (.complete i .deadlineExceeded .allOpen) =
      some (σ.network.completeAt c i .deadlineExceeded .allOpen call p) := by
    simp [Network.step, hcall, hcan, hsrc]
  refine ⟨.complete i .deadlineExceeded .allOpen,
    { σ with network := σ.network.completeAt c i .deadlineExceeded .allOpen call p }, ?_, ?_, ?_⟩
  · simp [System.step, complete, hcall, hn, hsrc]
  · refine ⟨⟨⟨FileSystem.allOpen_working, trivial, trivial, trivial, trivial, ?_⟩, ?_, trivial⟩, rfl⟩
    · apply Network.each_of_acts
      intro id fs input hacts
      cases hacts with
      | complete =>
        unfold Server.NoEntries
        split
        · simp_all
        · trivial
    · intro call' hcall'
      obtain rfl := Option.some.inj (hcall.symm.trans hcall')
      refine ⟨fun _ => by decide, fun hprepare => ?_⟩
      cases hrequest : call.request with
      | tpcPrepare =>
        rw [hrequest] at hpolled
        cases hpolled
      | _ =>
        rw [hrequest] at hprepare
        cases hprepare
  · have hcalls : (σ.network.completeAt c i .deadlineExceeded .allOpen call p).calls =
        σ.network.calls.set i { call with completed := true } := by
      have hout := congrArg (Network.outCalls p) hsent
      exact (congrArg (σ.network.calls.set i { call with completed := true } ++ ·) hout).trans
        (List.append_nil _)
    exact Network.left_lt_of_set hcall hcalls (Network.stages_congr rfl hstage) hpolled rfl
      (Call.work_completed hopen)

/-- The client's calls other than polls are answered when they arrive. -/
theorem Attended.answers (h : Attended L as σ) (hcall : σ.network.calls[i]? = some call)
    (hsrc : call.src = none) (hpolled : call.request.polled = none) (hnew : call.response = none) :
    σ.Advances L := by
  have hclient := h.sole.banked.provenance.routed.client call.dst call.request
    ⟨call, List.mem_of_getElem? hcall, hsrc, rfl, rfl⟩
  obtain ⟨hanswered, hsent, hstage⟩ := Server.proceed_unpolled (c := c)
    (s := σ.network.servers call.dst) .allOpen hclient hpolled
  obtain ⟨res, hres⟩ := Option.isSome_iff_exists.mp hanswered
  have hcalls : (σ.network.deliver c i .allOpen call).calls =
      σ.network.calls.set i { call with response := some res } := by
    show _ ++ Network.outCalls call.dst _ = _
    rw [hsent, hres]
    exact List.append_nil _
  refine ⟨.deliver i .allOpen, _, step_delivers hcall hnew, ⟨steady_deliver L σ i, rfl⟩, ?_⟩
  exact Network.left_lt_of_set hcall hcalls (Network.stages_congr rfl hstage) hpolled rfl
    (Call.work_answered hsrc hnew res)

/-- What the client makes of the end of a call: nothing, or the decision of a transaction. -/
theorem step_ends (hcall : σ.network.calls[i]? = some call) (hsrc : call.src = none)
    (hopen : call.completed = false) (hanswered : call.response.isSome = true) :
    ∃ σ' calls, step c σ (.complete i .ok .allOpen) = some σ' ∧
      σ'.network = send { σ.network with
        calls := σ.network.calls.set i { call with completed := true } } calls ∧
      (call.request.polled = none → calls = []) ∧ ∀ o ∈ calls, o.request.polled = none := by
  have hcan : Network.canComplete call .ok = true := by
    simp [Network.canComplete, hopen, hanswered]
  have hn : σ.network.step c (.complete i .ok .allOpen) = some { σ.network with
      calls := σ.network.calls.set i { call with completed := true } } := by
    simp [Network.step, hcall, hcan, hsrc]
  generalize ({ σ.network with calls := σ.network.calls.set i { call with completed := true } } :
    Network) = n at hn ⊢
  cases hrequest : call.request with
  | tpcPrepare request =>
    refine ⟨_, _, by simp [System.step, complete, hcall, hn, hsrc, hrequest]; rfl, rfl, ?_, ?_⟩
    · intro hnone
      cases hnone
    intro o ho
    obtain ⟨isCommit, hdecision⟩ := consumeReply_request ho
    rw [hdecision]
    cases isCommit <;> rfl
  | _ =>
    exact ⟨_, [], by simp [System.step, complete, hcall, hn, hsrc, hrequest]; rfl, by simp [send],
      fun _ => rfl, by simp⟩

/-- The client learns of the end of a call that was answered. -/
theorem exists_ends (L : Leaders c) (hcall : σ.network.calls[i]? = some call)
    (hsrc : call.src = none) (hopen : call.completed = false)
    (hanswered : call.response.isSome = true) : σ.Advances L := by
  obtain ⟨σ', calls, hs, hnetwork, hquiet, hpolls⟩ := step_ends (c := c) hcall hsrc hopen hanswered
  refine ⟨.complete i .ok .allOpen, σ', hs, ⟨⟨⟨FileSystem.allOpen_working, trivial, trivial,
    trivial, trivial, ?_⟩, ?_, trivial⟩, rfl⟩, ?_⟩
  · apply Network.each_of_acts
    intro id fs input hacts
    cases hacts with
    | complete hcall' _ hsrc' =>
      rw [Option.some.inj (hcall'.symm.trans hcall), hsrc] at hsrc'
      cases hsrc'
  · intro call' hcall'
    obtain rfl := Option.some.inj (hcall.symm.trans hcall')
    exact ⟨fun hsome => by simp [hsrc] at hsome, fun _ => rfl⟩
  · cases hpolled : call.request.polled with
    | some r =>
      have hnew : ((calls.map fun o => (⟨none, o.dst, o.request, none, false⟩ : Call)).map
          Call.pollWork).sum = 0 := by
        refine Network.pollWork_eq_zero fun d hmem => ?_
        obtain ⟨o, ho, rfl⟩ := List.mem_map.mp hmem
        exact hpolls o ho
      have hsum := sum_map_set Call.pollWork { call with completed := true } hcall
      refine Network.left_lt_of_polls ?_
      rw [hnetwork, send, List.map_append, List.sum_append, hnew]
      dsimp only
      simp only [Call.pollWork, hpolled, hopen, Option.isSome_some, if_true, Bool.not_false,
        Bool.not_true, Bool.toNat_true, Bool.toNat_false] at hsum
      omega
    | none =>
      obtain rfl := hquiet hpolled
      rw [hnetwork]
      exact Network.left_lt_of_set hcall (List.append_nil _) rfl hpolled rfl
        (Call.work_completed hopen)

/-- A poll is sent to the leader of a cluster of its transaction. -/
theorem Attended.exists_cluster (h : Attended L as σ) {p : ℤ} {isCrossShard : Bool}
    {request : TransferReq} (hsent : σ.network.Sent none p (.poll isCrossShard request)) :
    L.Leads p ∧ ∃ k, 1 ≤ k ∧ k ≤ c.numClusters ∧ c.getClusterIdFromServerId p = k ∧
      p = L.leader k := by
  obtain ⟨-, hleads, hcluster⟩ := h.sole.polls.led p isCrossShard request hsent
  obtain ⟨-, hsender, hreceiver⟩ := h.sole.banked.proper p isCrossShard request hsent
  refine ⟨hleads, c.getClusterIdFromServerId p, ?_⟩
  rcases hcluster with hs | hr
  · obtain ⟨hlow, hhigh⟩ := c.clusterIdFromClientId_mem hsender.1 hsender.2
    rw [hs] at hlow hhigh
    exact ⟨hlow, hhigh, rfl, hleads.2.symm⟩
  · obtain ⟨hlow, hhigh⟩ := c.clusterIdFromClientId_mem hreceiver.1 hreceiver.2
    rw [hr] at hlow hhigh
    exact ⟨hlow, hhigh, rfl, hleads.2.symm⟩

/-- A leader whose calls have all ended answers a poll of its round, or takes the round
further. -/
theorem Attended.advances (h : Attended L as σ) (hsize : 3 ≤ c.clusterSize)
    (hended : ∀ call ∈ σ.network.calls, call.src.isSome = true → call.completed = true)
    (hcall : σ.network.calls[i]? = some call) (hnew : call.response = none) {isCrossShard : Bool}
    {request : TransferReq} (hrequest : call.request = .poll isCrossShard request)
    (hturn : (σ.network.servers call.dst).isPaxosRunning = true →
      (σ.network.servers call.dst).paxosTid = request.tid) : σ.Advances L := by
  have hprov := h.sole.banked.provenance
  have hmem := List.mem_of_getElem? hcall
  have hpolled : call.request.polled = some request := by rw [hrequest, Request.polled_poll]
  have hsrc := hprov.routed.src_of_polled hmem hpolled
  obtain ⟨hleads, k, hlow, hhigh, hk, hdst⟩ := h.exists_cluster ⟨call, hmem, hsrc, rfl, hrequest⟩
  have hrange := Constants.members_range hlow hhigh (Constants.mem_members.mpr hk)
  obtain ⟨book, hfits, hled⟩ := h.sole.exists_book
  have hsync : (σ.network.servers call.dst).inSync = false := by
    by_contra hsync
    obtain ⟨call', hmem', hsrc', hopen, -⟩ := h.paced.syncing call.dst (by simpa using hsync)
    rw [hended call' hmem' (by simp [hsrc'])] at hopen
    cases hopen
  have hdecided : ∀ ph : Phase, ph.awaits (σ.network.servers call.dst) = true →
      ph.Decided (σ.network.servers call.dst) :=
    fun ph hawait => h.paced.decided hprov.routed hsize hleads hrange
      (fun call' hmem' hsrc' => hended call' hmem' (by simp [hsrc'])) hawait
  have hadvance := Server.runPaxos_advances (c := c) .allOpen ⟨hsync, hturn⟩
    (hled.lone call.dst hleads).phases hdecided isCrossShard
  have hproceed : (σ.network.servers call.dst).proceed c .allOpen call.request =
      (σ.network.servers call.dst).runPaxos c .allOpen request isCrossShard := by
    rw [hrequest]
    cases isCrossShard <;> rfl
  rw [← hproceed] at hadvance
  refine ⟨.deliver i .allOpen, _, step_delivers hcall hnew, ⟨steady_deliver L σ i, rfl⟩, ?_⟩
  have hacted : (σ.network.servers call.dst).Acted c .allOpen (.request call.request) _ :=
    Server.react_acted _
  have hout : ((Network.outCalls call.dst
      ((σ.network.servers call.dst).proceed c .allOpen call.request).sent).map
        Call.pollWork).sum = 0 := by
    refine Network.pollWork_eq_zero fun d hd => ?_
    have hsent := (Network.mem_outCalls.mp hd).1
    rcases hacted.sent_cases hsent with ⟨hq, -⟩ | ⟨-, hq | ⟨v, hq⟩ | hq⟩ <;> dsimp only at hq <;>
      rw [hq] <;> rfl
  have hsum := sum_map_set Call.pollWork { call with
    response := ((σ.network.servers call.dst).proceed c .allOpen call.request).response } hcall
  simp only [Call.pollWork, hpolled, hnew, Option.isSome_some, if_true, Option.isNone_none,
    Bool.toNat_true] at hsum
  have hcalls : ((σ.network.deliver c i .allOpen call).calls.map Call.pollWork).sum =
      ((σ.network.calls.set i { call with
        response := ((σ.network.servers call.dst).proceed c .allOpen call.request).response
        }).map Call.pollWork).sum := by
    simp only [Network.deliver, List.map_append, List.sum_append, hout, add_zero]
  cases hres : ((σ.network.servers call.dst).proceed c .allOpen call.request).response with
  | some res =>
    refine Network.left_lt_of_polls ?_
    rw [hcalls]
    simp only [hres, Option.isNone_some, Bool.toNat_false] at hsum ⊢
    omega
  | none =>
    have hstage := hadvance.resolve_left (by simp [hres])
    rw [hdst] at hstage
    refine Network.left_lt_of_stages ?_ (Network.stages_lt hlow hhigh (by rw [← hdst]; rfl) hstage)
    rw [hcalls]
    simp only [hres, Option.isNone_none, Bool.toNat_true] at hsum ⊢
    omega

/-- Every call has ended, and the servers have answered every call of the client, also one that
had ended with an error. -/
def Quiet (σ : System) : Prop :=
  ∀ call ∈ σ.network.calls, call.completed = true ∧ (call.src = none → call.response.isSome = true)

/-- As long as some call is open, there is a step on the way to the end of all. -/
theorem Attended.progress (h : Attended L as σ) (hsize : 3 ≤ c.clusterSize) (hopen : ¬ σ.Quiet) :
    σ.Advances L := by
  -- the calls of the servers end first
  by_cases hservers : ∃ call ∈ σ.network.calls, call.src.isSome = true ∧ call.completed = false
  · obtain ⟨call, hmem, hsrc, hopen⟩ := hservers
    obtain ⟨i, hcall⟩ := List.mem_iff_getElem?.mp hmem
    obtain ⟨p, hsrc⟩ := Option.isSome_iff_exists.mp hsrc
    exact h.expires hcall hsrc hopen
  have hended : ∀ call ∈ σ.network.calls, call.src.isSome = true → call.completed = true := by
    intro call hmem hsrc
    by_contra hno
    exact hservers ⟨call, hmem, hsrc, by simpa using hno⟩
  -- then what the client has asked is answered
  by_cases hasked : ∃ call ∈ σ.network.calls, call.src = none ∧ call.request.polled = none ∧
      call.response = none
  · obtain ⟨call, hmem, hsrc, hpolled, hnew⟩ := hasked
    obtain ⟨i, hcall⟩ := List.mem_iff_getElem?.mp hmem
    exact h.answers hcall hsrc hpolled hnew
  by_cases hends : ∃ call ∈ σ.network.calls, call.src = none ∧ call.completed = false ∧
      call.response.isSome = true
  · obtain ⟨call, hmem, hsrc, hopen, hanswered⟩ := hends
    obtain ⟨i, hcall⟩ := List.mem_iff_getElem?.mp hmem
    exact exists_ends L hcall hsrc hopen hanswered
  -- only polls are left
  obtain ⟨call, hmem, hnew, r, hpolled⟩ : ∃ call ∈ σ.network.calls, call.response = none ∧
      ∃ r, call.request.polled = some r := by
    by_contra hno
    apply hopen
    intro call hmem
    have hanswered : call.src = none → call.response.isSome = true := by
      intro hsrc
      by_contra hnone
      have hnone : call.response = none := by simpa using hnone
      cases hpolled : call.request.polled with
      | none => exact hasked ⟨call, hmem, hsrc, hpolled, hnone⟩
      | some r => exact hno ⟨call, hmem, hnone, r, hpolled⟩
    refine ⟨?_, hanswered⟩
    by_contra hcompleted
    cases hsrc : call.src with
    | none => exact hends ⟨call, hmem, hsrc, by simpa using hcompleted, hanswered hsrc⟩
    | some p => exact hcompleted (hended call hmem (by simp [hsrc]))
  -- a leader that runs another round has a poll of that one
  obtain ⟨call, hmem, hnew, r, hpolled, hturn⟩ : ∃ call ∈ σ.network.calls, call.response = none ∧
      ∃ r, call.request.polled = some r ∧ ((σ.network.servers call.dst).isPaxosRunning = true →
        (σ.network.servers call.dst).paxosTid = r.tid) := by
    by_cases hrunning : (σ.network.servers call.dst).isPaxosRunning = true
    · obtain ⟨call', hmem', hdst', hnew', r', hpolled', htid⟩ := h.paced.polled call.dst hrunning
      exact ⟨call', hmem', hnew', r', hpolled', fun _ => by rw [hdst', htid]⟩
    · exact ⟨call, hmem, hnew, r, hpolled, fun hrun => absurd hrun hrunning⟩
  obtain ⟨i, hcall⟩ := List.mem_iff_getElem?.mp hmem
  obtain ⟨x, hrequest⟩ := Request.poll_of_polled hpolled
  exact h.advances hsize hended hcall hnew hrequest hturn

/-! ### Rest -/

/-- A leader with nothing to do: no round runs, nothing is prepared and not decided, and no client
of its cluster is locked. -/
structure Idle (c : Constants) (s : Server) : Prop where
  stopped : s.isPaxosRunning = false
  decided : ∀ tid, s.wal.pending tid = none
  unlocked : ∀ x ∈ s.locks, c.getClusterIdFromClientId x ≠ s.clusterId

/-- Nothing is under way: every call has ended, every transaction has its decision, and the
leaders have nothing left to do. -/
structure AtRest (L : Leaders c) (σ : System) : Prop where
  quiet : σ.Quiet
  decided : ∀ dst r, σ.network.Sent none dst (.tpcPrepare r) →
    ∃ isCommit, DecisionSent c σ r isCommit
  idle : ∀ k, 1 ≤ k → k ≤ c.numClusters → Idle c (σ.network.servers (L.leader k))

/-- Once its prepare calls have ended, a transaction has its decision. -/
theorem Attended.decided (h : Attended L as σ) (hquiet : σ.Quiet) {i : ℕ} {request : TransferReq}
    {a b : Call} (hp : PairAt c as σ i request a b) :
    ∃ isCommit, DecisionSent c σ request isCommit := by
  have hcount := h.tallied.counts i request a b hp.preparedBy
  have hended : ∀ {j : ℕ} {d : Call}, σ.network.calls[j]? = some d →
      d.request = .tpcPrepare request → okEnded as j = true := by
    intro j d hd hreq
    exact h.ended j d hd (by rw [hreq]; rfl) (hquiet d (List.mem_of_getElem? hd)).1
  have hclosed : σ.processing request.tid = none := by
    by_contra hne
    obtain ⟨p, hproc⟩ := Option.ne_none_iff_exists'.mp hne
    obtain ⟨-, hsum, hle, -⟩ := hcount.counted p hproc
    rw [hended hp.first hp.prepares.1, hended hp.second hp.prepares.2] at hsum
    simp only [Bool.toNat_true] at hsum
    omega
  exact ⟨_, (hcount.decided hclosed).2.2⟩

/-- Once all calls have ended, the leaders have no transaction without its decision: they have
had the decision of each that they prepared. -/
theorem Attended.pending_none (h : Attended L as σ) (hquiet : σ.Quiet) {k : ℤ} (hlow : 1 ≤ k)
    (hhigh : k ≤ c.numClusters) (tid : ℤ) :
    (σ.network.servers (L.leader k)).wal.pending tid = none := by
  by_contra hne
  obtain ⟨e, he⟩ := Option.ne_none_iff_exists'.mp hne
  have hmember := L.member k hlow hhigh
  -- the client sent the prepare to a leader of its clusters, and to this one
  obtain ⟨dst, hcluster, hsent⟩ := h.sole.banked.provenance.pending (L.leader k) (by omega) tid e he
  obtain ⟨-, -, hled⟩ := h.sole.polls.led dst true _ hsent
  have hconcerns : Concerns c e.txn (L.leader k) := by
    refine ⟨Constants.members_range hlow hhigh (Constants.mem_members.mpr hmember), ?_⟩
    rw [← hcluster]
    exact hled.imp Eq.symm Eq.symm
  obtain ⟨call, hmem, -, -, hrequest⟩ := hsent
  obtain ⟨j, hj⟩ := List.mem_iff_getElem?.mp hmem
  obtain ⟨i, a, b, hp, -⟩ := h.sole.banked.coordinated.pairs j call _ hj hrequest
  obtain ⟨isCommit, hdecision⟩ := h.decided hquiet hp
  obtain ⟨l, d, hl, hsrc, hdst, hd⟩ := hdecision.all (L.leader k) hconcerns
  have hmem' := List.mem_of_getElem? hl
  obtain ⟨res, hres⟩ := Option.isSome_iff_exists.mp ((hquiet d hmem').2 hsrc)
  have hnone := h.heedful.heeded (L.leader k) (L.leads hlow hhigh) none isCommit ⟨tid⟩ res
    ⟨d, hmem', hsrc, hdst, hd, hres⟩
  rw [hnone] at he
  cases he

/-- A leader runs no round once all calls have ended and are answered. -/
theorem Attended.stopped (h : Attended L as σ) (hquiet : σ.Quiet) (p : ℤ) :
    (σ.network.servers p).isPaxosRunning = false := by
  by_contra hrunning
  obtain ⟨call, hmem, -, hnew, r, hpolled, -⟩ := h.paced.polled p (by simpa using hrunning)
  have hsrc := h.sole.banked.provenance.routed.src_of_polled hmem hpolled
  have hanswered := (hquiet call hmem).2 hsrc
  rw [hnew] at hanswered
  cases hanswered

theorem Attended.idle (h : Attended L as σ) (hquiet : σ.Quiet) {k : ℤ} (hlow : 1 ≤ k)
    (hhigh : k ≤ c.numClusters) : Idle c (σ.network.servers (L.leader k)) where
  stopped := h.stopped hquiet _
  decided := h.pending_none hquiet hlow hhigh
  unlocked := by
    intro x hx hkept
    obtain ⟨book, -, hled⟩ := h.sole.exists_book
    have hleads := L.leads hlow hhigh
    obtain ⟨r, ⟨e, he, -⟩ | ⟨hacc, -⟩, -⟩ := h.heedful.tidy _ hleads x hx hkept
    · rw [h.pending_none hquiet hlow hhigh] at he
      cases he
    · have hrunning := ((hled.lone _ hleads).phases.accept hacc)
      rw [h.stopped hquiet] at hrunning
      cases hrunning

theorem Attended.atRest (h : Attended L as σ) (hquiet : σ.Quiet) : AtRest L σ where
  quiet := hquiet
  idle := fun k hlow hhigh => h.idle hquiet hlow hhigh
  decided := by
    rintro dst r ⟨call, hmem, -, -, hrequest⟩
    obtain ⟨j, hj⟩ := List.mem_iff_getElem?.mp hmem
    obtain ⟨i, a, b, hp, -⟩ := h.sole.banked.coordinated.pairs j call r hj hrequest
    exact h.decided hquiet hp

/-- Progress: from every state that a bank reaches while it keeps in touch with its leaders, it can
be brought to rest without a new request of the client. Every call ends and is answered, every
transaction gets its decision, and the leaders apply it and leave no client locked. -/
theorem reaches_rest (L : Leaders c) (hsize : 3 ≤ c.clusterSize) {disk : ℤ → Disk}
    (h : Reaches c (fun σ a => Steady L σ a) disk as σ) :
    ∃ more σ', Reaches c (fun σ a => Steady L σ a) disk (as ++ more) σ' ∧
      (∀ a ∈ more, a.issues = false) ∧ AtRest L σ' := by
  obtain ⟨more, σ', hmore, ⟨as', hattended⟩, hquiet⟩ := exists_runs_of_decreasing
    (P := fun σ a => Steady L σ a ∧ a.issues = false) (fun σ : System => σ.network.left L)
    (I := fun σ => ∃ as, Attended L as σ) (G := Quiet) ⟨as, reaches_attended L h⟩
    (fun σ a σ' ⟨as, ha⟩ hP hs => ⟨as ++ [a], ha.step hs hP.1⟩)
    (fun σ ⟨as, ha⟩ hopen => by
      obtain ⟨a, σ', hs, hP, hlt⟩ := ha.progress hsize hopen
      exact ⟨a, σ', hP, hs, hlt⟩)
  refine ⟨more, σ', h.trans (hmore.mono fun _ _ h => h.1), ?_, hattended.atRest hquiet⟩
  exact hmore.forall_mem fun _ _ h => h.2

/-- Server 1 runs the round of a cross-shard transaction; a transfer of the same client waits. -/
def openRun : List Action :=
  [.processTransaction ⟨1, 1001, 3⟩ ["S1".toList, "S4".toList, "S7".toList] 7,
    .processTransaction ⟨1, 2, 4⟩ ["S1".toList, "S4".toList, "S7".toList] 8, .arrives 0,
    .arrives 2, .arrives 3]

theorem reaches_rest_openRun : ∃ more σ', run (step .standard) (init .standard fun _ => .empty)
    (openRun ++ more) = some σ' ∧ (∀ a ∈ more, a.issues = false) ∧ AtRest firstServers σ' := by
  obtain ⟨σ, hσ⟩ := Option.isSome_iff_exists.mp
    (show (runIf (step .standard) (fun σ a => (a.Names firstServers ∧ a.Nonneg) ∧ UniqueTid σ a ∧
        Unsynced firstServers σ a ∧ Timely σ a ∧ a.Spares firstServers)
      (init .standard fun _ => .empty) openRun).isSome = true by decide +kernel)
  have hnamed := runs_of_runIf hσ
  have hguard : Runs (step .standard) (fun _ a => a.working ∧ a.proper)
      (init .standard fun _ => .empty) openRun σ := by
    refine runs_of_forall (P := fun a => a.working ∧ a.proper) hnamed.run_eq ?_
    simp [openRun, Action.arrives, Action.working, Action.proper, FileSystem.allOpen_working,
      TransferReq.Proper, IsClient, totalClients]
  have hsteady : Reaches .standard (fun σ a => Steady firstServers σ a) (fun _ => .empty)
      openRun σ := by
    refine (hguard.and hnamed).mono ?_
    rintro σ a ⟨⟨hworking, hproper⟩, ⟨hnames, hnonneg⟩, hunique, hunsynced, htimely, hspares⟩
    exact ⟨⟨hworking, hproper, hnames, hnonneg, hunique, hunsynced⟩, htimely, hspares⟩
  obtain ⟨more, σ', hrun, hissues, hrest⟩ := reaches_rest firstServers (by decide) hsteady
  exact ⟨more, σ', hrun.run_eq, hissues, hrest⟩

end System
end TpcBank
