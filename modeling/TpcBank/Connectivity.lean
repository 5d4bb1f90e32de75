import TpcBank.Disconnected
import TpcBank.Driver
import TpcBank.InCalls
import TpcBank.TwoPhaseCommit

/-! The start of a transaction set is a barrier: when the client issues the first of its
transactions, every server knows whether the set lists it, and it keeps to that until the next
set is started. -/
namespace TpcBank
open Decimal Transition

/-- A name of the deployment is looked up as the server that it names. -/
theorem Constants.idOfName_eq_iff {c : Constants} {name : Text} {s : Text × ℤ}
    (hname : name ∈ c.serverNames) (hs : s ∈ c.serverIds) :
    Server.idOfName c name = s.2 ↔ name = s.1 := by
  obtain ⟨⟨name, id⟩, hmem, rfl⟩ := List.mem_map.mp (hname)
  dsimp only at hmem ⊢
  obtain ⟨name', id'⟩ := s
  obtain ⟨rfl, -⟩ := mem_serverIds.mp hs
  have hid : Server.idOfName c name = id := by
    unfold Server.idOfName
    cases hlookup : c.serverIds.lookup name with
    | none =>
      have hno := List.lookup_eq_none_iff.mp hlookup _ hmem
      simp at hno
    | some id'' =>
      obtain ⟨before, after, hsplit, -⟩ := List.lookup_eq_some_iff.mp hlookup
      have hmem' : (name, id'') ∈ c.serverIds := by simp [hsplit]
      have hsame := (mem_serverIds.mp hmem).1.symm.trans (mem_serverIds.mp hmem').1
      exact (decimal_injective (List.append_cancel_left hsame)).symm
  rw [hid, (mem_serverIds.mp hmem).1]
  exact ⟨fun h => by rw [h], fun h => decimal_injective (List.append_cancel_left h)⟩

/-- Among the names that a list leaves out is the one of a server, or the list has it. -/
theorem Constants.any_unlisted {c : Constants} {s : Text × ℤ} (hs : s ∈ c.serverIds)
    (servers : List Text) :
    ((c.serverNames.filter fun name => !servers.contains name).any fun name =>
      Server.idOfName c name = s.2) = !servers.contains s.1 := by
  rw [Bool.eq_iff_iff, List.any_eq_true]
  constructor
  · rintro ⟨name, hname, hid⟩
    obtain ⟨hmem, hout⟩ := List.mem_filter.mp hname
    rw [← (idOfName_eq_iff hmem hs).mp (of_decide_eq_true hid)]
    exact hout
  · intro hout
    have hmem : s.1 ∈ c.serverNames := List.mem_map_of_mem hs
    exact ⟨s.1, List.mem_filter.mpr ⟨hmem, hout⟩,
      decide_eq_true ((idOfName_eq_iff hmem hs).mpr rfl)⟩

namespace Network

variable {c : Constants} {named : Option (List Text)} {awaited : List ℕ} {n n' : Network}
  {e : Event}

/-- A Disconnect call of the client ends only with an answer. -/
def Heard (n : Network) : Event → Prop
  | .complete i status _ => ∀ call ∈ n.calls[i]?, call.request.type = .disconnect → status = .ok
  | _ => True

instance (n : Network) (e : Event) : Decidable (Heard n e) :=
  match e with
  | .complete i status _ => inferInstanceAs
      (Decidable (∀ call ∈ n.calls[i]?, call.request.type = .disconnect → status = .ok))
  | .call _ _ | .deliver _ _ => isTrue trivial

/-- What the servers know of the names that the client has told last. A Disconnect call that has
not arrived yet carries them, and is one of those that are waited for; a server that none is on
its way to goes by them. -/
structure Told (c : Constants) (named : Option (List Text)) (awaited : List ℕ) (n : Network) :
    Prop where
  waits : ∀ (j : ℕ) (call : Call) q, n.calls[j]? = some call → call.request = .disconnect q →
    call.response = none → j ∈ awaited ∧ call.completed = false ∧ named = some q.servers
  told : ∀ names, named = some names → ∀ s ∈ c.serverIds,
    (∀ call ∈ n.calls, ∀ q, call.request = .disconnect q → call.dst = s.2 →
      call.response.isSome = true) →
        (n.servers s.2).iAmDisconnected = names.any fun name => Server.idOfName c name = s.2

theorem told_init (c : Constants) (disk : ℤ → Disk) : Told c none [] (init c disk) where
  waits := by
    intro j call q hcall
    cases List.mem_of_getElem? hcall
  told := nofun

theorem Told.waits_step (h : Told c named awaited n) (hs : step c n e = some n')
    (he : ∀ dst q, e ≠ .call dst (.disconnect q)) (hheard : Heard n e) {j : ℕ} {d : Call}
    {q : DisconnectReq} (hd : n'.calls[j]? = some d) (hrequest : d.request = .disconnect q)
    (hnew : d.response = none) : j ∈ awaited ∧ d.completed = false ∧ named = some q.servers := by
  have hstep := step_stepped hs
  rcases hstep.earlier hd with ⟨b, hb, hlater⟩ | ⟨dst, request, rfl, -, rfl⟩ | ⟨-, hserver⟩
  · have hold : b.response = none := by
      by_contra hne
      obtain ⟨res, hres⟩ := Option.ne_none_iff_exists'.mp hne
      rw [hlater.response res hres] at hnew
      cases hnew
    rw [hlater.request] at hrequest
    obtain ⟨hmem, hopen, hnamed⟩ := h.waits j b q hb hrequest hold
    refine ⟨hmem, ?_, hnamed⟩
    by_cases hends : ∃ status fs, e = .complete j status fs
    · obtain ⟨status, fs, rfl⟩ := hends
      obtain rfl := hheard b hb (by rw [hrequest]; rfl)
      have hcan : canComplete b .ok = false := by simp [canComplete, hold]
      simp [step, hb, hcan] at hs
    · rw [hstep.completed_eq hb hd fun status fs heq => hends ⟨status, fs, heq⟩, hopen]
  · exact absurd (by rw [← hrequest]) (he dst q)
  · rw [hrequest] at hserver
    cases hserver

theorem Told.step (h : Told c named awaited n) (hrouted : Routed c n)
    (hs : Network.step c n e = some n') (he : ∀ dst q, e ≠ .call dst (.disconnect q))
    (hheard : Heard n e) : Told c named awaited n' where
  waits := fun j d q hd hrequest hnew => h.waits_step hs he hheard hd hrequest hnew
  told := by
    intro names hnamed s hserver hall
    have hstep := step_stepped hs
    by_cases hdelivered : ∃ fs q, Acts n e s.2 fs (.request (.disconnect q))
    · -- what arrives are the names
      obtain ⟨fs, q, hacts⟩ := hdelivered
      rw [step_acts hs hacts, Function.update_self]
      generalize hinput : Input.request (.disconnect q) = input at hacts
      generalize s.2 = p at hacts
      cases hacts with
      | complete => cases hinput
      | deliver hcall hnew =>
        obtain ⟨-, -, hq⟩ := h.waits _ _ q hcall (Input.request.inj hinput).symm hnew
        rw [hnamed] at hq
        obtain rfl := Option.some.inj hq
        rw [← Input.request.inj hinput]
        exact congrArg (fun id => q.servers.any fun name => Server.idOfName c name = id)
          (hrouted.serverId _)
    · have hbefore : ∀ call ∈ n.calls, ∀ q, call.request = .disconnect q → call.dst = s.2 →
          call.response.isSome = true := by
        intro call hmem q hrequest hdst
        by_contra hnone
        obtain ⟨j, hj⟩ := List.mem_iff_getElem?.mp hmem
        obtain ⟨d, hd, hlater⟩ := hstep.later hj
        have hanswered := hall d (List.mem_of_getElem? hd) q (hlater.request.trans hrequest)
          (hlater.dst.trans hdst)
        obtain ⟨fs, -, hacts, -⟩ := hstep.acts_answered hj hd (by simpa using hnone) hanswered
        rw [hdst, hrequest] at hacts
        exact hdelivered ⟨fs, q, hacts⟩
      rw [← h.told names hnamed s hserver hbefore]
      cases hstep.changeAt s.2 with
      | same hserver => rw [hserver]
      | handled fs input r hacts hr hserver =>
        rw [hserver]
        refine hr.iAmDisconnected fun q hq => ?_
        subst hq
        exact hdelivered ⟨fs, q, hacts⟩

end Network

/-- The action with which the client starts a transaction set. -/
def Action.startsSet : Action → Bool
  | .updateDisconnected _ => true
  | _ => false

namespace System

variable {c : Constants} {named : Option (List Text)} {awaited : List ℕ} {σ σ' : System}
  {a : Action}

/-- Calls of another kind than Disconnect leave everything as it is. -/
theorem told_send {n : Network} {calls : List OutCall} (h : Network.Told c named awaited n)
    (hcalls : ∀ o ∈ calls, ∀ q, o.request ≠ .disconnect q) :
    Network.Told c named awaited (send n calls) where
  waits := by
    intro j call q hcall hrequest hnew
    rcases getElem?_send hcall with hold | ⟨k, o, -, ho, rfl⟩
    · exact h.waits j call q hold hrequest hnew
    · exact absurd hrequest (hcalls o (List.mem_of_getElem? ho) q)
  told := by
    intro names hnamed s hs hall
    exact h.told names hnamed s hs fun call hmem => hall call (List.mem_append_left _ hmem)

/-- The client tells all servers some names, and waits for the calls. -/
theorem told_updateDisconnected {n : Network} (h : Network.Told c named [] n)
    (servers : List Text) :
    Network.Told c (some servers) (List.range' n.calls.length c.serverIds.length)
      (send n (c.serverIds.map fun s => ⟨s.2, .disconnect ⟨servers⟩⟩)) where
  waits := by
    intro j call q hcall hrequest hnew
    rcases getElem?_send hcall with hold | ⟨k, o, rfl, ho, rfl⟩
    · cases (h.waits j call q hold hrequest hnew).1
    · have hlen := (List.getElem?_eq_some_iff.mp ho).1
      obtain ⟨s, -, rfl⟩ := List.mem_map.mp (List.mem_of_getElem? ho)
      cases hrequest
      rw [List.length_map] at hlen
      exact ⟨List.mem_range'_1.mpr ⟨by omega, by omega⟩, rfl, rfl⟩
  told := by
    intro names hnamed s hs hall
    have hsent : (⟨none, s.2, .disconnect ⟨servers⟩, none, false⟩ : Call) ∈
        (send n (c.serverIds.map fun s => ⟨s.2, .disconnect ⟨servers⟩⟩)).calls := by
      refine List.mem_append_right _ (List.mem_map.mpr ⟨⟨s.2, .disconnect ⟨servers⟩⟩, ?_, rfl⟩)
      exact List.mem_map.mpr ⟨s, hs, rfl⟩
    cases hall _ hsent _ rfl rfl

/-- The Disconnect calls end only with an answer. -/
def Heard (σ : System) : Action → Prop
  | .complete i status fs => Network.Heard σ.network (.complete i status fs)
  | _ => True

instance (σ : System) (a : Action) : Decidable (Heard σ a) :=
  match a with
  | .complete i status fs =>
    inferInstanceAs (Decidable (Network.Heard σ.network (.complete i status fs)))
  | .processTransaction _ _ _ | .updateDisconnected _ | .printBalance _ | .printDatastore
  | .deliver _ _ => isTrue trivial

theorem Told.step (h : Network.Told c named awaited σ.network)
    (hrouted : Network.Routed c σ.network) (hs : System.step c σ a = some σ') (hheard : Heard σ a)
    (hother : a.startsSet = false) : Network.Told c named awaited σ'.network := by
  obtain ⟨n, calls, hnetwork, hcalls, hn⟩ := step_calls hs (by rintro servers rfl; cases hother)
  rw [hnetwork]
  refine told_send ?_ hcalls
  rcases hn with rfl | ⟨i, fs, rfl, hn⟩ | ⟨i, status, fs, rfl, hn⟩
  · exact h
  · exact h.step hrouted hn (by simp) trivial
  · exact h.step hrouted hn (by simp) hheard

end System

namespace Driver

variable {c : Constants} {named : Option (List Text)} {awaited : List ℕ} {d d' : Driver}
  {e : DriverEvent} {es : List DriverEvent} {text : Text} {disk : ℤ → Disk}

/-- The Disconnect calls end only with an answer. -/
def Heard (d : Driver) (e : DriverEvent) : Prop :=
  ∀ a ∈ d.action e, System.Heard d.system a

instance (d : Driver) (e : DriverEvent) : Decidable (d.Heard e) :=
  inferInstanceAs (Decidable (∀ a ∈ d.action e, System.Heard d.system a))

/-- The Disconnect calls end only with an answer, and no other set is started. -/
def OnlyHeard (d : Driver) (e : DriverEvent) : Prop :=
  d.Heard e ∧ ∀ a ∈ d.action e, a.startsSet = false

instance (d : Driver) (e : DriverEvent) : Decidable (d.OnlyHeard e) :=
  inferInstanceAs (Decidable (_ ∧ _))

/-- The servers that the set does not list are the disconnected ones. -/
def Listed (c : Constants) (set : TransactionSet) : Prop :=
  set.disconnected = c.serverNames.filter fun name => !set.servers.contains name

/-- The main thread has yet to start the set that was read, or it is at the transactions of the
set that it has started. -/
def OnSet (c : Constants) (named : Option (List Text)) (d : Driver) : Prop :=
  d.todo = setTasks d.set ∧ Listed c d.set ∨ ∀ task ∈ d.todo, match task with
    | .updateDisconnected _ => False
    | .processTransaction t leaders => t ∈ d.set.transactions ∧ leaders = d.set.leaders ∧
        named = some d.set.disconnected ∧ Listed c d.set
    | _ => True

/-- What holds of the program whose Disconnect calls are heard. -/
structure Informed (c : Constants) (named : Option (List Text)) (d : Driver) : Prop where
  routed : Network.Routed c d.system.network
  told : Network.Told c named d.awaited d.system.network
  onSet : OnSet c named d

/-- When the main thread goes on, every Disconnect call has arrived. -/
theorem told_ready (h : Network.Told c named d.awaited d.system.network) (hready : d.ready = true) :
    Network.Told c named [] d.system.network where
  waits := by
    intro j call q hcall hrequest hnew
    obtain ⟨hmem, hopen, -⟩ := h.waits j call q hcall hrequest hnew
    have hended := List.all_eq_true.mp hready j hmem
    rw [hcall] at hended
    simp [hopen] at hended
  told := h.told

theorem told_mono {n : Network} (h : Network.Told c named [] n) :
    Network.Told c named awaited n where
  waits := by
    intro j call q hcall hrequest hnew
    cases (h.waits j call q hcall hrequest hnew).1
  told := h.told

/-- A set that was read lists its disconnected servers. -/
theorem readTasks_onSet (r : CSVReader) (t : TransactionSet) {system : System}
    {awaited : List ℕ} : OnSet c named
      { reader := (r.readNextSet c t).reader, set := (r.readNextSet c t).set,
        mainloop := .running (readTasks (r.readNextSet c t)), awaited, system } := by
  generalize hread : r.readNextSet c t = read
  unfold readTasks
  unfold CSVReader.readNextSet at hread
  split at hread
  · subst hread
    exact .inr fun task htask => absurd htask List.not_mem_nil
  · dsimp only at hread
    split_ifs at hread with hnone
    · subst hread
      exact .inr fun task htask => absurd htask List.not_mem_nil
    · subst hread
      dsimp only
      split_ifs with hzero
      · exact .inr fun task htask => absurd htask List.not_mem_nil
      · exact .inl ⟨rfl, List.filter_congr fun name _ => by simp⟩

theorem OnSet.command (h : OnSet c named d) (line : Text) : OnSet c named (d.command c line) := by
  have hnone : ∀ {d' : Driver}, d'.todo = [] → OnSet c named d' := by
    intro d' htodo
    refine .inr fun task htask => ?_
    rw [htodo] at htask
    cases htask
  have hprint : ∀ {d' : Driver} {task : Task}, d'.todo = [task] →
      (∀ servers, task ≠ .updateDisconnected servers) →
        (∀ t leaders, task ≠ .processTransaction t leaders) → OnSet c named d' := by
    intro d' task htodo hupdate hprocess
    refine .inr fun task' htask => ?_
    rw [htodo, List.mem_singleton] at htask
    subst htask
    cases task' with
    | updateDisconnected servers => exact hupdate servers rfl
    | processTransaction t leaders => exact absurd rfl (hprocess t leaders)
    | _ => trivial
  unfold Driver.command
  split
  · exact h
  · exact hnone rfl
  · unfold execute
    split
    · exact readTasks_onSet d.reader d.set
    · exact hprint (todo_running rfl) (by simp) (by simp)
    · exact hprint (todo_running rfl) (by simp) (by simp)
    · exact h
    · exact hnone rfl

theorem command_awaited (line : Text) : (d.command c line).awaited = d.awaited := by
  unfold Driver.command
  split
  · rfl
  · rfl
  · unfold execute
    split <;> rfl

theorem Informed.step (h : Informed c named d) (hstep : Stepped c d e d') (hheard : d.Heard e) :
    ∃ named', Informed c named' d' := by
  cases hstep with
  | prompted line =>
    refine ⟨named, ?_, ?_, h.onSet.command line⟩
    · rw [command_system]
      exact h.routed
    · rw [command_system, command_awaited]
      exact h.told
  | delivered i fs σ hs =>
    exact ⟨named, (System.step_stepped hs).routed h.routed,
      System.Told.step h.told h.routed hs (hheard _ rfl) rfl, h.onSet⟩
  | completed i status fs σ hs =>
    exact ⟨named, (System.step_stepped hs).routed h.routed,
      System.Told.step h.told h.routed hs (hheard _ rfl) rfl, h.onSet⟩
  | issued tid task rest σ awaited hrunning hready hs hawaited =>
    have hrouted := (System.step_stepped hs).routed h.routed
    have hready := told_ready h.told hready
    have htodo := todo_running hrunning
    have hquiet : (task.action tid).startsSet = false → Network.Told c named awaited σ.network := by
      intro hother
      refine told_mono (System.Told.step hready h.routed hs ?_ hother)
      cases task <;> trivial
    rcases h.onSet with ⟨hset, hlisted⟩ | htasks
    · -- the set is started
      rw [htodo] at hset
      obtain ⟨rfl, rfl⟩ := List.cons.inj hset
      refine ⟨some d.set.disconnected, hrouted, ?_, .inr fun task htask => ?_⟩
      · cases hs
        rw [hawaited]
        have htold := System.told_updateDisconnected hready d.set.disconnected
        simpa [Task.blocks, System.send] using htold
      · obtain ⟨t, ht, rfl⟩ := List.mem_map.mp htask
        exact ⟨ht, rfl, rfl, hlisted⟩
    · rw [htodo] at htasks
      refine ⟨named, hrouted, hquiet ?_, .inr fun task' htask => ?_⟩
      · have htask := htasks task List.mem_cons_self
        cases task with
        | updateDisconnected servers => exact htask.elim
        | _ => rfl
      · exact htasks task' (List.mem_cons_of_mem _ htask)

theorem reaches_exists_informed (h : Reaches c (fun d e => d.Heard e) text disk es d) :
    ∃ named, Informed c named d := by
  induction h with
  | refl =>
    refine ⟨none, Network.routed_init c disk, Network.told_init c disk, .inr fun task htask => ?_⟩
    cases htask
  | snoc _ hheard hs ih =>
    obtain ⟨named, hinformed⟩ := ih
    exact hinformed.step (step_stepped hs) hheard

/-- What the actions keep that start no other set. -/
theorem runs_onlyHeard {I : System → Prop}
    (hmore : Runs (step c) (fun d e => d.OnlyHeard e) d es d') (h0 : I d.system)
    (hstep : ∀ σ a σ', I σ → System.step c σ a = some σ' → System.Heard σ a →
      a.startsSet = false → I σ') : I d'.system := by
  refine hmore.invariant (I := fun d => I d.system) h0 ?_
  intro d e d' hI ⟨hheard, hother⟩ hs
  have hrun := (step_stepped hs).system
    (Q := fun σ a => System.Heard σ a ∧ a.startsSet = false) fun a ha => ⟨hheard a ha, hother a ha⟩
  exact hrun.invariant hI fun σ a σ' hI hP hs => hstep σ a σ' hI hs hP.1 hP.2

/-- What is known when the client comes to issue a transaction: it is one of the set that was
started, and the servers have been told which of them the set does not list. -/
theorem reaches_started (h : Reaches c (fun d e => d.Heard e) text disk es d)
    (hready : d.ready = true) {t : Transaction} {leaders : List Text} {rest : List Task}
    (hnext : d.todo = .processTransaction t leaders :: rest) :
    (t ∈ d.set.transactions ∧ leaders = d.set.leaders) ∧ Listed c d.set ∧
      Network.Routed c d.system.network ∧
        Network.Told c (some d.set.disconnected) [] d.system.network := by
  obtain ⟨named, hrouted, htold, ⟨hset, -⟩ | htasks⟩ := reaches_exists_informed h
  · rw [hnext] at hset
    cases hset
  · obtain ⟨ht, hleaders, rfl, hlisted⟩ := htasks _ (hnext ▸ List.mem_cons_self)
    exact ⟨⟨ht, hleaders⟩, hlisted, hrouted, told_ready htold hready⟩

/-- Servers that were told and wait for nothing go by the set. -/
theorem Listed.flag {set : TransactionSet} (hlisted : Listed c set) {n : Network}
    (htold : Network.Told c (some set.disconnected) [] n) {s : Text × ℤ} (hs : s ∈ c.serverIds) :
    (n.servers s.2).iAmDisconnected = !set.servers.contains s.1 := by
  have harrived : ∀ call ∈ n.calls, ∀ q, call.request = .disconnect q → call.dst = s.2 →
      call.response.isSome = true := by
    intro call hmem q hrequest _
    by_contra hnone
    obtain ⟨j, hj⟩ := List.mem_iff_getElem?.mp hmem
    cases (htold.waits j call q hj hrequest (by simpa using hnone)).1
  rw [htold.told _ rfl s hs harrived, hlisted]
  exact c.any_unlisted hs set.servers

/-- The start of a set is a barrier, whatever the file: when the client comes to issue a
transaction of the set, and until the next set is started, the disconnected servers are those that
the set does not list. -/
theorem reaches_informed (h : Reaches c (fun d e => d.Heard e) text disk es d)
    (hready : d.ready = true) {t : Transaction} {leaders : List Text} {rest : List Task}
    (hnext : d.todo = .processTransaction t leaders :: rest) {more : List DriverEvent}
    (hmore : Runs (step c) (fun d e => d.OnlyHeard e) d more d') :
    (t ∈ d.set.transactions ∧ leaders = d.set.leaders) ∧ ∀ s ∈ c.serverIds,
      (d'.system.network.servers s.2).iAmDisconnected = !d.set.servers.contains s.1 := by
  obtain ⟨hissued, hlisted, hrouted, htold⟩ := reaches_started h hready hnext
  have hkept : Network.Routed c d'.system.network ∧
      Network.Told c (some d.set.disconnected) [] d'.system.network := by
    refine runs_onlyHeard (I := fun σ => Network.Routed c σ.network ∧
      Network.Told c (some d.set.disconnected) [] σ.network) hmore ⟨hrouted, htold⟩ ?_
    intro σ a σ' ⟨hrouted, htold⟩ hs hheard hother
    exact ⟨(System.step_stepped hs).routed hrouted, System.Told.step htold hrouted hs hheard hother⟩
  exact ⟨hissued, fun s hs => hlisted.flag hkept.2 hs⟩

/-- All servers but the third. -/
def eightServers : Names where
  names := ['1', '2', '4', '5', '6', '7', '8', '9'].map fun digit => ['S', digit]
  nonempty := by decide
  clean := by simp [IsNameChar]

def withoutThird : WrittenSet := { twoTransfers with servers := eightServers }

/-- The set is started: the third server hears that it is disconnected. -/
def startedRun : List DriverEvent :=
  [.prompt "processNextSet".toList, .issue 1] ++
    (List.range 9).flatMap fun i => [.deliver i .allOpen, .complete i .ok .allOpen]

/-- The first transaction is issued, and the third server refuses to vote for it. -/
def refusedRun : List DriverEvent := [.issue 7, .deliver 9 .allOpen, .deliver 11 .allOpen]

theorem reaches_informed_refusedRun : ∃ d d',
    run (step .standard) (init .standard (WrittenSet.write true false [withoutThird])
      fun _ => .empty) startedRun = some d ∧
    run (step .standard) d refusedRun = some d' ∧
    (d'.system.network.servers 3).iAmDisconnected = true ∧
    (d'.system.network.servers 2).iAmDisconnected = false := by
  obtain ⟨d, hd, hchecked⟩ := (Option.any_eq_true _ _).mp
    (show (runIf (step .standard) (fun d e => d.Heard e)
      (init .standard (WrittenSet.write true false [withoutThird]) fun _ => .empty) startedRun).any
      (fun d => decide (d.ready = true ∧ d.set.servers = eightServers.names ∧
        d.todo = [.processTransaction ⟨1, 2, 3⟩ threeLeaders.names,
          .processTransaction ⟨2, 1001, 4⟩ threeLeaders.names] ∧
        (runIf (step .standard) (fun d e => d.OnlyHeard e) d refusedRun).isSome)) = true by
      decide +kernel)
  obtain ⟨hready, hset, htodo, hmore⟩ := of_decide_eq_true hchecked
  obtain ⟨d', hd'⟩ := Option.isSome_iff_exists.mp hmore
  have hruns := runs_of_runIf hd
  obtain ⟨-, hflags⟩ := reaches_informed hruns hready htodo (runs_of_runIf hd')
  rw [hset] at hflags
  exact ⟨d, d', hruns.run_eq, (runs_of_runIf hd').run_eq,
    hflags (['S', '3'], 3) (by decide), hflags (['S', '2'], 2) (by decide)⟩

end Driver
end TpcBank
