import TpcBank.Effects
import TpcBank.Network

/-! What one event does to the network, and the history that the call table keeps. -/
namespace TpcBank
namespace Network

/-- The events with the handler that each one runs. -/
inductive Stepped (c : Constants) (n : Network) : Event → Network → Prop
  | called (dst : ℤ) (request : Request) (hclient : request.fromClient = true) :
      Stepped c n (.call dst request)
        { n with calls := n.calls ++ [⟨none, dst, request, none, false⟩] }
  | delivered (i : ℕ) (fs : FileSystem) (call : Call) (r : Handled)
      (hcall : n.calls[i]? = some call) (hnew : call.response = none)
      (hr : (n.servers call.dst).Acted c fs (.request call.request) r) :
      Stepped c n (.deliver i fs)
        { servers := Function.update n.servers call.dst r.server
          calls := n.calls.set i { call with response := r.response } ++ outCalls call.dst r.sent }
  | ended (i : ℕ) (status : Status) (fs : FileSystem) (call : Call)
      (hcall : n.calls[i]? = some call) (hopen : canComplete call status = true)
      (hsrc : call.src = none) :
      Stepped c n (.complete i status fs)
        { n with calls := n.calls.set i { call with completed := true } }
  | completed (i : ℕ) (status : Status) (fs : FileSystem) (call : Call) (src : ℤ) (r : Handled)
      (hcall : n.calls[i]? = some call) (hopen : canComplete call status = true)
      (hsrc : call.src = some src)
      (hr : (n.servers src).Acted c fs
        (.reply call.request status (call.response.getD .empty)) r) :
      Stepped c n (.complete i status fs)
        { servers := Function.update n.servers src r.server
          calls := n.calls.set i { call with completed := true } ++ outCalls src r.sent }

variable {c : Constants} {n n' : Network} {e : Event}

theorem step_stepped (h : step c n e = some n') : Stepped c n e n' := by
  cases e with
  | call dst request =>
    simp only [step] at h
    split_ifs at h with hclient
    cases h
    exact .called dst request hclient
  | deliver i fs =>
    obtain ⟨call, hcall, h⟩ := Option.bind_eq_some_iff.mp h
    split_ifs at h with hnew
    cases h
    exact .delivered i fs call _ hcall (by simpa using hnew) (Server.react_acted _)
  | complete i status fs =>
    obtain ⟨call, hcall, h⟩ := Option.bind_eq_some_iff.mp h
    split_ifs at h with hopen
    cases hsrc : call.src with
    | none =>
      rw [hsrc] at h
      cases h
      simpa only [hsrc] using Stepped.ended (c := c) i status fs call hcall hopen hsrc
    | some src =>
      rw [hsrc] at h
      cases h
      exact .completed i status fs call src _ hcall hopen hsrc (Server.react_acted _)

/-- The server that an event makes act, and what it reacts to. -/
inductive Acts (n : Network) : Event → ℤ → FileSystem → Input → Prop
  | deliver {i : ℕ} {fs : FileSystem} {call : Call} (hcall : n.calls[i]? = some call)
      (hnew : call.response = none) : Acts n (.deliver i fs) call.dst fs (.request call.request)
  | complete {i : ℕ} {status : Status} {fs : FileSystem} {call : Call} {src : ℤ}
      (hcall : n.calls[i]? = some call) (hopen : canComplete call status = true)
      (hsrc : call.src = some src) :
      Acts n (.complete i status fs) src fs
        (.reply call.request status (call.response.getD .empty))

/-- The server that an event makes act, its file system and its input, if there is one. -/
def acting (n : Network) : Event → Option (ℤ × FileSystem × Input)
  | .call _ _ => none
  | .deliver i fs => do
      let call ← n.calls[i]?
      if call.response.isNone then some (call.dst, fs, .request call.request) else none
  | .complete i status fs => do
      let call ← n.calls[i]?
      if canComplete call status then
        call.src.map fun src => (src, fs, .reply call.request status (call.response.getD .empty))
      else none

theorem acting_eq_some {id : ℤ} {fs : FileSystem} {input : Input} :
    acting n e = some (id, fs, input) ↔ Acts n e id fs input := by
  constructor
  · intro h
    cases e with
    | call => simp [acting] at h
    | deliver i fs' =>
      obtain ⟨call, hcall, h⟩ := Option.bind_eq_some_iff.mp h
      split_ifs at h with hnew
      cases h
      exact .deliver hcall (by simpa using hnew)
    | complete i status fs' =>
      obtain ⟨call, hcall, h⟩ := Option.bind_eq_some_iff.mp h
      split_ifs at h with hopen
      obtain ⟨src, hsrc, h⟩ := Option.map_eq_some_iff.mp h
      cases h
      exact .complete hcall hopen hsrc
  · intro h
    cases h with
    | deliver hcall hnew => simp [acting, hcall, hnew]
    | complete hcall hopen hsrc => simp [acting, hcall, hopen, hsrc]

/-- An event makes one server act, on one input. -/
theorem Acts.unique {id id' : ℤ} {fs fs' : FileSystem} {input input' : Input}
    (h : Acts n e id fs input) (h' : Acts n e id' fs' input') : id = id' ∧ input = input' := by
  have hsame := (acting_eq_some.mpr h).symm.trans (acting_eq_some.mpr h')
  simp only [Option.some.injEq, Prod.mk.injEq] at hsame
  exact ⟨hsame.1, hsame.2.2⟩

theorem Acts.working {id : ℤ} {fs : FileSystem} {input : Input} (h : Acts n e id fs input)
    (hworking : e.working) : fs.working := by
  cases h <;> exact hworking

/-- A condition on the handler that an event runs. -/
def Each (G : Server → FileSystem → Input → Prop) (n : Network) (e : Event) : Prop :=
  match acting n e with
  | none => True
  | some (id, fs, input) => G (n.servers id) fs input

instance {G : Server → FileSystem → Input → Prop} [∀ s fs input, Decidable (G s fs input)] :
    Decidable (Each G n e) := by
  unfold Each
  split <;> infer_instance

theorem Each.acts {G : Server → FileSystem → Input → Prop} (h : Each G n e) {id : ℤ}
    {fs : FileSystem} {input : Input} (hacts : Acts n e id fs input) :
    G (n.servers id) fs input := by
  unfold Each at h
  rwa [acting_eq_some.mpr hacts] at h

theorem each_of_acts {G : Server → FileSystem → Input → Prop}
    (h : ∀ id fs input, Acts n e id fs input → G (n.servers id) fs input) : Each G n e := by
  unfold Each
  split
  · trivial
  · rename_i hact
    exact h _ _ _ (acting_eq_some.mp hact)

theorem Each.mono {G H : Server → FileSystem → Input → Prop}
    (hGH : ∀ s fs input, G s fs input → H s fs input) (h : Each G n e) : Each H n e :=
  each_of_acts fun _ _ _ hacts => hGH _ _ _ (h.acts hacts)

theorem step_acts (h : step c n e = some n') {id : ℤ} {fs : FileSystem} {input : Input}
    (hacts : Acts n e id fs input) :
    n'.servers = Function.update n.servers id ((n.servers id).react c fs input).server := by
  cases hacts with
  | deliver hcall hnew =>
    simp only [step, hcall, Option.bind_eq_bind, Option.bind_some, hnew, Option.isNone_none,
      if_true, Option.some.injEq] at h
    rw [← h]
    rfl
  | complete hcall hopen hsrc =>
    simp only [step, hcall, Option.bind_eq_bind, Option.bind_some, hopen, if_true, hsrc,
      Option.some.injEq] at h
    rw [← h]
    rfl

/-! ### The history -/

/-- A request was sent. -/
def Sent (n : Network) (src : Option ℤ) (dst : ℤ) (request : Request) : Prop :=
  ∃ call ∈ n.calls, call.src = src ∧ call.dst = dst ∧ call.request = request

instance (n : Network) (src : Option ℤ) (dst : ℤ) (request : Request) :
    Decidable (n.Sent src dst request) :=
  inferInstanceAs (Decidable (∃ call ∈ n.calls, _))

/-- A request was answered. -/
def Answered (n : Network) (src : Option ℤ) (dst : ℤ) (request : Request) (response : Response) :
    Prop :=
  ∃ call ∈ n.calls, call.src = src ∧ call.dst = dst ∧ call.request = request ∧
    call.response = some response

instance (n : Network) (src : Option ℤ) (dst : ℤ) (request : Request) (response : Response) :
    Decidable (n.Answered src dst request response) :=
  inferInstanceAs (Decidable (∃ call ∈ n.calls, _))

theorem Answered.sent {src : Option ℤ} {dst : ℤ} {request : Request} {response : Response}
    (h : n.Answered src dst request response) : n.Sent src dst request := by
  obtain ⟨call, hmem, hsrc, hdst, hrequest, -⟩ := h
  exact ⟨call, hmem, hsrc, hdst, hrequest⟩

theorem mem_outCalls {id : ℤ} {sent : List OutCall} {call : Call} :
    call ∈ outCalls id sent ↔
      ⟨call.dst, call.request⟩ ∈ sent ∧ call.src = some id ∧ call.response = none ∧
        call.completed = false := by
  unfold outCalls
  rw [List.mem_map]
  constructor
  · rintro ⟨o, ho, rfl⟩
    exact ⟨ho, rfl, rfl, rfl⟩
  · rintro ⟨ho, hsrc, hresponse, hcompleted⟩
    refine ⟨_, ho, ?_⟩
    cases call
    simp_all

/-- What is kept of a call when the table changes. -/
structure Later (call call' : Call) : Prop where
  src : call'.src = call.src
  dst : call'.dst = call.dst
  request : call'.request = call.request
  response : ∀ res, call.response = some res → call'.response = some res
  completed : call.completed = true → call'.completed = true

theorem Later.refl (call : Call) : Later call call := ⟨rfl, rfl, rfl, fun _ h => h, fun h => h⟩

theorem Later.trans {a b d : Call} (h : Later a b) (h' : Later b d) : Later a d :=
  ⟨h'.src.trans h.src, h'.dst.trans h.dst, h'.request.trans h.request,
    fun res hres => h'.response res (h.response res hres), fun hc => h'.completed (h.completed hc)⟩

theorem getElem?_set_later {calls : List Call} (more : List Call) {i j : ℕ} {call call' b : Call}
    (hcall : calls[i]? = some call) (hlater : Later call call') (hj : calls[j]? = some b) :
    ∃ b', (calls.set i call' ++ more)[j]? = some b' ∧ Later b b' := by
  have hlen : j < calls.length := (List.getElem?_eq_some_iff.mp hj).1
  rw [List.getElem?_append_left (by simpa using hlen), List.getElem?_set]
  by_cases hij : i = j
  · subst hij
    obtain rfl : call = b := Option.some.inj (hcall.symm.trans hj)
    exact ⟨call', by simp [hlen], hlater⟩
  · exact ⟨b, by simp [hij, hj], .refl b⟩

theorem getElem?_set_append {calls more : List Call} {i j : ℕ} {b b' d : Call}
    (hb : calls[j]? = some b) (hd : (calls.set i b' ++ more)[j]? = some d) :
    d = if i = j then b' else b := by
  have hlen := (List.getElem?_eq_some_iff.mp hb).1
  rw [List.getElem?_append_left (by simpa using hlen)] at hd
  by_cases hij : i = j
  · rw [hij, List.getElem?_set_self hlen] at hd
    rw [if_pos hij]
    exact (Option.some.inj hd).symm
  · rw [List.getElem?_set_ne hij, hb] at hd
    rw [if_neg hij]
    exact (Option.some.inj hd).symm

/-- A call ends in no other event than its end. -/
theorem Stepped.completed_eq (h : Stepped c n e n') {j : ℕ} {b d : Call} (hb : n.calls[j]? = some b)
    (hd : n'.calls[j]? = some d) (he : ∀ status fs, e ≠ .complete j status fs) :
    d.completed = b.completed := by
  have hset : ∀ {i : ℕ} {b' : Call} {more : List Call}, (n.calls.set i b' ++ more)[j]? = some d →
      i ≠ j → d.completed = b.completed := by
    intro i b' more hd hij
    rw [getElem?_set_append hb hd, if_neg hij]
  cases h with
  | called dst request =>
    rw [List.getElem?_append_left (List.getElem?_eq_some_iff.mp hb).1, hb] at hd
    rw [Option.some.inj hd]
  | delivered i fs call r hcall =>
    by_cases hij : i = j
    · subst hij
      rw [getElem?_set_append hb hd, if_pos rfl, Option.some.inj (hcall.symm.trans hb)]
    · exact hset hd hij
  | ended i status fs call hcall =>
    have hd' : (n.calls.set i { call with completed := true } ++ [])[j]? = some d := by
      rwa [List.append_nil]
    refine hset hd' fun hij => ?_
    exact he status fs (by rw [hij])
  | completed i status fs call src r hcall =>
    refine hset hd fun hij => ?_
    exact he status fs (by rw [hij])

/-- A call is answered in no other event than its arrival. -/
theorem Stepped.acts_answered (h : Stepped c n e n') {j : ℕ} {b d : Call}
    (hb : n.calls[j]? = some b) (hd : n'.calls[j]? = some d) (hnew : b.response = none)
    (hanswered : d.response.isSome = true) :
    ∃ fs r, Acts n e b.dst fs (.request b.request) ∧
      (n.servers b.dst).Acted c fs (.request b.request) r ∧ d.response = r.response := by
  have hsame : ∀ {i : ℕ} {b' : Call} {more : List Call}, n.calls[i]? = some b' →
      (n.calls.set i { b' with completed := true } ++ more)[j]? = some d → False := by
    intro i b' more hi hd
    rw [getElem?_set_append hb hd] at hanswered
    split_ifs at hanswered with hij
    · subst hij
      rw [Option.some.inj (hi.symm.trans hb), hnew] at hanswered
      cases hanswered
    · rw [hnew] at hanswered
      cases hanswered
  cases h with
  | called dst request =>
    rw [List.getElem?_append_left (List.getElem?_eq_some_iff.mp hb).1, hb] at hd
    rw [← Option.some.inj hd, hnew] at hanswered
    cases hanswered
  | delivered i fs call r hcall hfirst hr =>
    by_cases hij : i = j
    · subst hij
      obtain rfl := Option.some.inj (hcall.symm.trans hb)
      refine ⟨fs, r, .deliver hb hnew, hr, ?_⟩
      rw [getElem?_set_append hb hd, if_pos rfl]
    · rw [getElem?_set_append hb hd, if_neg hij, hnew] at hanswered
      cases hanswered
  | ended i status fs call hcall =>
    have hd' : (n.calls.set i { call with completed := true } ++ [])[j]? = some d := by
      rwa [List.append_nil]
    exact (hsame hcall hd').elim
  | completed i status fs call src r hcall => exact (hsame hcall hd).elim

/-- Calls stay in the table, and a response stays what it is. -/
theorem Stepped.later (h : Stepped c n e n') {j : ℕ} {call : Call} (hj : n.calls[j]? = some call) :
    ∃ call', n'.calls[j]? = some call' ∧ Later call call' := by
  cases h with
  | called =>
    have hlen : j < n.calls.length := (List.getElem?_eq_some_iff.mp hj).1
    exact ⟨call, by rw [List.getElem?_append_left hlen, hj], .refl call⟩
  | delivered i fs b r hcall hnew hr =>
    exact getElem?_set_later _ hcall ⟨rfl, rfl, rfl, by simp [hnew], fun h => h⟩ hj
  | ended i status fs b hcall =>
    have hlater : Later b { b with completed := true } := ⟨rfl, rfl, rfl, fun _ h => h, fun _ => rfl⟩
    have h := getElem?_set_later [] hcall hlater hj
    rwa [List.append_nil] at h
  | completed i status fs b src r hcall =>
    exact getElem?_set_later _ hcall ⟨rfl, rfl, rfl, fun _ h => h, fun _ => rfl⟩ hj

theorem Stepped.later_mem (h : Stepped c n e n') {call : Call} (hmem : call ∈ n.calls) :
    ∃ call' ∈ n'.calls, Later call call' := by
  obtain ⟨j, hj⟩ := List.mem_iff_getElem?.mp hmem
  obtain ⟨call', hj', hlater⟩ := h.later hj
  exact ⟨call', List.mem_of_getElem? hj', hlater⟩

theorem Sent.step {src : Option ℤ} {dst : ℤ} {request : Request} (h : n.Sent src dst request)
    (hstep : Stepped c n e n') : n'.Sent src dst request := by
  obtain ⟨call, hmem, rfl, rfl, rfl⟩ := h
  obtain ⟨call', hmem', hlater⟩ := hstep.later_mem hmem
  exact ⟨call', hmem', hlater.src, hlater.dst, hlater.request⟩

theorem Answered.step {src : Option ℤ} {dst : ℤ} {request : Request} {response : Response}
    (h : n.Answered src dst request response) (hstep : Stepped c n e n') :
    n'.Answered src dst request response := by
  obtain ⟨call, hmem, rfl, rfl, rfl, hresponse⟩ := h
  obtain ⟨call', hmem', hlater⟩ := hstep.later_mem hmem
  exact ⟨call', hmem', hlater.src, hlater.dst, hlater.request, hlater.response _ hresponse⟩

theorem sent_of_outCalls {id : ℤ} {sent : List OutCall} (h : outCalls id sent ⊆ n.calls) :
    ∀ o ∈ sent, n.Sent (some id) o.dst o.request :=
  fun o ho => ⟨⟨some id, o.dst, o.request, none, false⟩,
    h (mem_outCalls.mpr ⟨ho, rfl, rfl, rfl⟩), rfl, rfl, rfl⟩

/-- What an event changes: nothing but a request of the client, or what one handler does.
The history grows by the calls that the handler sends and by its response. -/
inductive Change (c : Constants) (n : Network) (e : Event) (n' : Network) : Prop
  | quiet (hservers : n'.servers = n.servers)
      (hsent : ∀ src dst request, n'.Sent src dst request → n.Sent src dst request ∨
        src = none ∧ e = .call dst request ∧ request.fromClient = true)
      (hans : ∀ src dst request response, n'.Answered src dst request response →
        n.Answered src dst request response)
  | handled (id : ℤ) (fs : FileSystem) (input : Input) (r : Handled)
      (hacts : Acts n e id fs input) (hr : (n.servers id).Acted c fs input r)
      (hservers : n'.servers = Function.update n.servers id r.server)
      (hsent : ∀ src dst request, n'.Sent src dst request → n.Sent src dst request ∨
        src = some id ∧ ⟨dst, request⟩ ∈ r.sent)
      (hans : ∀ src dst request response, n'.Answered src dst request response →
        n.Answered src dst request response ∨
          dst = id ∧ input = .request request ∧ n.Sent src dst request ∧
            r.response = some response)
      (hsends : ∀ o ∈ r.sent, n'.Sent (some id) o.dst o.request)
      (hanswers : ∀ request response, input = .request request → r.response = some response →
        ∃ src, n'.Answered src id request response)

/-- Where a call of the changed table comes from. -/
theorem mem_set_append {calls more : List Call} {i : ℕ} {b b' call : Call}
    (hcall : calls[i]? = some b) (hmem : call ∈ calls.set i b' ++ more) :
    call ∈ calls ∨ call = b' ∧ b ∈ calls ∨ call ∈ more := by
  rcases List.mem_append.mp hmem with hold | hmore
  · rcases List.mem_or_eq_of_mem_set hold with hold | heq
    · exact .inl hold
    · exact .inr (.inl ⟨heq, List.mem_of_getElem? hcall⟩)
  · exact .inr (.inr hmore)

theorem Stepped.change (h : Stepped c n e n') : Change c n e n' := by
  cases h with
  | called dst request hclient =>
    refine .quiet rfl ?_ ?_
    · rintro src dst' request' ⟨call, hmem, rfl, rfl, rfl⟩
      rcases List.mem_append.mp hmem with hold | hnew
      · exact .inl ⟨call, hold, rfl, rfl, rfl⟩
      · obtain rfl := List.mem_singleton.mp hnew
        exact .inr ⟨rfl, rfl, hclient⟩
    · rintro src dst' request' response ⟨call, hmem, rfl, rfl, rfl, hresponse⟩
      rcases List.mem_append.mp hmem with hold | hnew
      · exact ⟨call, hold, rfl, rfl, rfl, hresponse⟩
      · obtain rfl := List.mem_singleton.mp hnew
        simp at hresponse
  | ended i status fs b hcall =>
    refine .quiet rfl ?_ ?_
    · rintro src dst request ⟨call, hmem, rfl, rfl, rfl⟩
      rcases List.mem_or_eq_of_mem_set hmem with hold | rfl
      · exact .inl ⟨call, hold, rfl, rfl, rfl⟩
      · exact .inl ⟨b, List.mem_of_getElem? hcall, rfl, rfl, rfl⟩
    · rintro src dst request response ⟨call, hmem, rfl, rfl, rfl, hresponse⟩
      rcases List.mem_or_eq_of_mem_set hmem with hold | rfl
      · exact ⟨call, hold, rfl, rfl, rfl, hresponse⟩
      · exact ⟨b, List.mem_of_getElem? hcall, rfl, rfl, rfl, hresponse⟩
  | delivered i fs b r hcall hnew hr =>
    refine .handled b.dst fs _ r (.deliver hcall hnew) hr rfl ?_ ?_
      (sent_of_outCalls (List.subset_append_right _ _)) ?_
    · rintro src dst request ⟨call, hmem, rfl, rfl, rfl⟩
      rcases mem_set_append hcall hmem with hold | ⟨rfl, hb⟩ | hout
      · exact .inl ⟨call, hold, rfl, rfl, rfl⟩
      · exact .inl ⟨b, hb, rfl, rfl, rfl⟩
      · exact .inr ⟨(mem_outCalls.mp hout).2.1, (mem_outCalls.mp hout).1⟩
    · rintro src dst request response ⟨call, hmem, rfl, rfl, rfl, hresponse⟩
      rcases mem_set_append hcall hmem with hold | ⟨rfl, hb⟩ | hout
      · exact .inl ⟨call, hold, rfl, rfl, rfl, hresponse⟩
      · exact .inr ⟨rfl, rfl, ⟨b, hb, rfl, rfl, rfl⟩, hresponse⟩
      · simp [(mem_outCalls.mp hout).2.2.1] at hresponse
    · intro request response hinput hresponse
      obtain rfl : b.request = request := Input.request.inj hinput
      have hlen : i < n.calls.length := (List.getElem?_eq_some_iff.mp hcall).1
      exact ⟨b.src, { b with response := r.response },
        List.mem_append_left _ (List.mem_set hlen _), rfl, rfl, rfl, hresponse⟩
  | completed i status fs b src r hcall hopen hsrc hr =>
    refine .handled src fs _ r (.complete hcall hopen hsrc) hr rfl ?_ ?_
      (sent_of_outCalls (List.subset_append_right _ _)) (fun _ _ hinput => by cases hinput)
    · rintro src' dst request ⟨call, hmem, rfl, rfl, rfl⟩
      rcases mem_set_append hcall hmem with hold | ⟨rfl, hb⟩ | hout
      · exact .inl ⟨call, hold, rfl, rfl, rfl⟩
      · exact .inl ⟨b, hb, rfl, rfl, rfl⟩
      · exact .inr ⟨(mem_outCalls.mp hout).2.1, (mem_outCalls.mp hout).1⟩
    · rintro src' dst request response ⟨call, hmem, rfl, rfl, rfl, hresponse⟩
      rcases mem_set_append hcall hmem with hold | ⟨rfl, hb⟩ | hout
      · exact .inl ⟨call, hold, rfl, rfl, rfl, hresponse⟩
      · exact .inl ⟨b, hb, rfl, rfl, rfl, hresponse⟩
      · simp [(mem_outCalls.mp hout).2.2.1] at hresponse

/-- What an event changes for one server: nothing, or what its handler does. -/
inductive ChangeAt (c : Constants) (n : Network) (e : Event) (n' : Network) (x : ℤ) : Prop
  | same (hserver : n'.servers x = n.servers x)
      (hsent : ∀ dst request, n'.Sent (some x) dst request → n.Sent (some x) dst request)
      (hans : ∀ src request response, n'.Answered src x request response →
        n.Answered src x request response)
  | handled (fs : FileSystem) (input : Input) (r : Handled) (hacts : Acts n e x fs input)
      (hr : (n.servers x).Acted c fs input r) (hserver : n'.servers x = r.server)
      (hsent : ∀ dst request, n'.Sent (some x) dst request →
        n.Sent (some x) dst request ∨ ⟨dst, request⟩ ∈ r.sent)
      (hans : ∀ src request response, n'.Answered src x request response →
        n.Answered src x request response ∨
          input = .request request ∧ n.Sent src x request ∧ r.response = some response)
      (hsends : ∀ o ∈ r.sent, n'.Sent (some x) o.dst o.request)
      (hanswers : ∀ request response, input = .request request → r.response = some response →
        ∃ src, n'.Answered src x request response)

theorem Stepped.changeAt (h : Stepped c n e n') (x : ℤ) : ChangeAt c n e n' x := by
  cases h.change with
  | quiet hservers hsent hans =>
    refine .same (by rw [hservers]) (fun dst request hs => ?_) fun src => hans src x
    rcases hsent _ _ _ hs with hold | ⟨hnone, -⟩
    · exact hold
    · cases hnone
  | handled id fs input r hacts hr hservers hsent hans hsends hanswers =>
    by_cases hx : x = id
    · subst hx
      refine .handled fs input r hacts hr (by rw [hservers, Function.update_self])
        (fun dst request hs => (hsent _ _ _ hs).imp_right And.right)
        (fun src request response ha => (hans _ _ _ _ ha).imp_right And.right) hsends hanswers
    · refine .same (by rw [hservers, Function.update_of_ne hx]) (fun dst request hs => ?_)
        fun src request response ha => ?_
      · rcases hsent _ _ _ hs with hold | ⟨hsome, -⟩
        · exact hold
        · exact absurd (Option.some.inj hsome) hx
      · rcases hans _ _ _ _ ha with hold | ⟨hdst, -⟩
        · exact hold
        · exact absurd hdst hx

/-- A call that a server has sent was sent before, or the handler that has run sends it. -/
theorem Stepped.sent_before (h : Stepped c n e n') {x dst : ℤ} {request : Request}
    (hs : n'.Sent (some x) dst request) : n.Sent (some x) dst request ∨
      ∃ fs input r, Acts n e x fs input ∧ (n.servers x).Acted c fs input r ∧
        n'.servers x = r.server ∧ ⟨dst, request⟩ ∈ r.sent := by
  cases h.changeAt x with
  | same hserver hsent => exact .inl (hsent _ _ hs)
  | handled fs input r hacts hr hserver hsent =>
    exact (hsent _ _ hs).imp_right fun ho => ⟨fs, input, r, hacts, hr, hserver, ho⟩

/-- An answer of a server was given before, or the handler that has run gives it. -/
theorem Stepped.answered_before (h : Stepped c n e n') {src : Option ℤ} {x : ℤ} {request : Request}
    {response : Response} (ha : n'.Answered src x request response) :
    n.Answered src x request response ∨
      ∃ fs r, Acts n e x fs (.request request) ∧ (n.servers x).Acted c fs (.request request) r ∧
        n'.servers x = r.server ∧ n.Sent src x request ∧ r.response = some response := by
  cases h.changeAt x with
  | same hserver hsent hans => exact .inl (hans _ _ _ ha)
  | handled fs input r hacts hr hserver hsent hans =>
    rcases hans _ _ _ ha with hold | ⟨rfl, hs, hres⟩
    · exact .inl hold
    · exact .inr ⟨fs, r, hacts, hr, hserver, hs, hres⟩

/-- The servers send nothing in the name of the client. -/
theorem Stepped.client_before (h : Stepped c n e n') {dst : ℤ} {request : Request}
    (hs : n'.Sent none dst request) :
    n.Sent none dst request ∨ e = .call dst request ∧ request.fromClient = true := by
  cases h.change with
  | quiet hservers hsent => exact (hsent _ _ _ hs).imp_right And.right
  | handled id fs input r hacts hr hservers hsent =>
    rcases hsent _ _ _ hs with hold | ⟨hsome, -⟩
    · exact .inl hold
    · cases hsome

/-- A property of single servers that every handler keeps is kept by every event. -/
theorem Stepped.server_invariant {I : ℤ → Server → Prop} (h : Stepped c n e n')
    (hI : ∀ id, I id (n.servers id))
    (hact : ∀ id fs input r, Acts n e id fs input → (n.servers id).Acted c fs input r →
      I id r.server) (id : ℤ) : I id (n'.servers id) := by
  cases h.changeAt id with
  | same hserver =>
    rw [hserver]
    exact hI id
  | handled fs input r hacts hr hserver =>
    rw [hserver]
    exact hact id fs input r hacts hr

/-- The calls that a server sent to a peer and that it may still react to. -/
theorem Acts.sent {id : ℤ} {fs : FileSystem} {input : Input} (h : Acts n e id fs input) :
    (∃ src request, input = .request request ∧ n.Sent src id request) ∨
      ∃ dst request status response, input = .reply request status response ∧
        n.Sent (some id) dst request ∧
        (status = .ok → n.Answered (some id) dst request response) := by
  cases h with
  | deliver hcall hnew => exact .inl ⟨_, _, rfl, _, List.mem_of_getElem? hcall, rfl, rfl, rfl⟩
  | @complete i status fs call src hcall hopen hsrc =>
    have hmem := List.mem_of_getElem? hcall
    refine .inr ⟨_, _, _, _, rfl, ⟨call, hmem, hsrc, rfl, rfl⟩, ?_⟩
    rintro rfl
    have hsome : call.response.isSome = true := by
      simpa [canComplete] using (Bool.and_eq_true_iff.mp hopen).2
    obtain ⟨res, hres⟩ := Option.isSome_iff_exists.mp hsome
    exact ⟨call, hmem, hsrc, rfl, rfl, by simp [hres]⟩

theorem Acts.request_sent {id : ℤ} {fs : FileSystem} {request : Request}
    (h : Acts n e id fs (.request request)) : ∃ src, n.Sent src id request := by
  rcases h.sent with ⟨src, request', hinput, hs⟩ | ⟨_, _, _, _, hinput, -⟩
  · cases hinput
    exact ⟨src, hs⟩
  · cases hinput

theorem Acts.reply_answered {id : ℤ} {fs : FileSystem} {request : Request} {response : Response}
    (h : Acts n e id fs (.reply request .ok response)) :
    ∃ dst, n.Answered (some id) dst request response := by
  rcases h.sent with ⟨_, _, hinput, -⟩ | ⟨dst, _, _, _, hinput, -, hans⟩
  · cases hinput
  · cases hinput
    exact ⟨dst, hans rfl⟩

end Network
end TpcBank
