import TpcBank.Votes

/-! The slot of a ballot: where the log of its server ended when the round was opened. Who promises
a ballot has a log that ends there, so the promises of a server are for slots that never go
down. -/
namespace TpcBank
open Transition

namespace Server

variable {c : Constants} {s : Server} {input : Input} {r : Handled}

/-- The last index of the log. -/
def EndsAtLast (s : Server) : Prop := s.lastInserted = s.log.length - 1

theorem Move.endsAtLast (h : Move c s input r) (hs : s.EndsAtLast) : r.server.EndsAtLast := by
  unfold EndsAtLast at hs ⊢
  cases h with
  | committed request d locks hcommits hlog => simp [hlog]
  | released request d locks hreleases htwo hlog => simp [hlog]
  | synced request response d hack hlog =>
    simp only [hlog, hs, List.length_append, List.length_map]
    omega
  | _ => exact hs

theorem Move.promisedNum (h : Move c s input r) : r.server.promisedNum = s.promisedNum ∨
    s.ballotNum < r.server.promisedNum.num := by
  cases h with
  | opened => exact .inr (Int.lt_succ _)
  | promised request hnum => exact .inr hnum
  | _ => exact .inl rfl

end Server

namespace Network

/-- A round was opened with a ballot while the log of its server ended at an index. -/
def Slot (n : Network) (b : Ballot) (l : ℤ) : Prop :=
  ∃ src dst, n.Sent src dst (.prepare ⟨b, l⟩)

variable {c : Constants} {n n' : Network} {e : Event} {x : ℤ} {b b' : Ballot} {l l' : ℤ}

theorem Slot.step (h : n.Slot b l) (hstep : Stepped c n e n') : n'.Slot b l := by
  obtain ⟨src, dst, hs⟩ := h
  exact ⟨src, dst, hs.step hstep⟩

theorem Slot.promised (h : n.Slot b l) (hrouted : Routed c n) : n.Promised b.serverId b := by
  obtain ⟨src, dst, hs⟩ := h
  obtain rfl := (hrouted.prepare hs).1
  exact .inl ⟨rfl, dst, l, hs⟩

theorem Promised.slot (h : n.Promised x b) : ∃ l, n.Slot b l := by
  rcases h with ⟨-, dst, l, hs⟩ | ⟨src, reply, -, l, ha⟩
  · exact ⟨l, _, dst, hs⟩
  · exact ⟨l, src, x, ha.sent⟩

/-- A promise was there before, or it is for a number above all earlier ones, and for the slot at
which the log ends. -/
theorem Promised.before (h : n'.Promised x b) (hstep : Stepped c n e n') :
    n.Promised x b ∨ (n.servers x).ballotNum < b.num ∧ b = (n'.servers x).promisedNum ∧
      (n'.servers x).lastInserted = (n.servers x).lastInserted ∧
      n'.Slot b (n.servers x).lastInserted := by
  rcases h with ⟨hid, dst, l, hs⟩ | ⟨src, reply, hack, l, ha⟩
  · rcases hstep.sent_before hs with hold | ⟨fs, input, r, hacts, hr, hserver, ho⟩
    · exact .inl (.inl ⟨hid, dst, l, hold⟩)
    · obtain ⟨hq, _, request, -, -, -, -, rfl⟩ := hr.sent_prepare ho
      rw [PrepareReq.mk.injEq] at hq
      rw [hserver, ← hq.2]
      refine .inr ⟨?_, hq.1, hq.2.symm, _, dst, hs⟩
      rw [hq.1]
      exact Int.lt_succ _
  · rcases hstep.answered_before ha with hold | ⟨fs, r, hacts, hr, hserver, -, hres⟩
    · exact .inl (.inr ⟨src, reply, hack, l, hold⟩)
    · obtain ⟨reply', hreply, -, -, hspec⟩ := hr.response_prepare rfl hres
      cases hreply
      obtain ⟨hnum, hlast, -, hpromised⟩ := hspec hack
      rw [hserver, hpromised]
      exact .inr ⟨hnum, rfl, rfl, src, x, by rw [← hlast]; exact ha.sent⟩

/-- What the promises of the servers have to do with the ends of their logs. -/
structure Slotted (n : Network) : Prop where
  last : ∀ x, (n.servers x).EndsAtLast
  one : ∀ b l l', n.Slot b l → n.Slot b l' → l = l'
  bounded : ∀ b l, n.Slot b l → -1 ≤ l
  below : ∀ x b l, n.Promised x b → n.Slot b l → l ≤ (n.servers x).lastInserted
  grows : ∀ x b b' l l', n.Promised x b → n.Promised x b' → b.num ≤ b'.num →
    n.Slot b l → n.Slot b' l' → l ≤ l'
  latest : ∀ x b, n.Promised x b → b.num ≤ (n.servers x).promisedNum.num

/-- A slot was there before, or its ballot is above all earlier ones of its server. -/
theorem Slot.before (h : n'.Slot b l) (hrouted : Routed c n) (hstep : Stepped c n e n') :
    n.Slot b l ∨ (n.servers b.serverId).ballotNum < b.num ∧
      l = (n.servers b.serverId).lastInserted := by
  obtain ⟨src, dst, hs⟩ := h
  cases src with
  | none => cases (hrouted.step hstep).client _ _ hs
  | some p =>
    rcases hstep.sent_before hs with hs | ⟨fs, input, r, hacts, hr, -, ho⟩
    · exact .inl ⟨_, dst, hs⟩
    · obtain ⟨hq, -⟩ := hr.sent_prepare ho
      rw [PrepareReq.mk.injEq, hrouted.serverId] at hq
      obtain ⟨rfl, rfl⟩ := hq
      exact .inr ⟨Int.lt_succ _, rfl⟩

/-- A ballot that was promised has the slot that it had. -/
theorem Slot.old (h : n'.Slot b l) (hproposals : Proposals c n) (hstep : Stepped c n e n')
    (hpromised : n.Promised x b) : n.Slot b l := by
  obtain ⟨l', hslot⟩ := hpromised.slot
  have hbound := ((hproposals.promising b.serverId).bound b (hslot.promised hproposals.routed)).2
  rcases h.before hproposals.routed hstep with hold | ⟨hlt, -⟩
  · exact hold
  · exact absurd hbound (not_le.mpr hlt)

namespace Slotted

theorem init (c : Constants) (disk : ℤ → Disk) : Slotted (Network.init c disk) := by
  have hnone : ∀ x b, ¬ (Network.init c disk).Promised x b := by
    rintro x b (⟨-, dst, l, call, hmem, -⟩ | ⟨src, reply, -, l, call, hmem, -⟩) <;> cases hmem
  refine ⟨fun x => rfl, ?_, ?_, fun x b l hb => absurd hb (hnone x b),
    fun x b b' l l' hb => absurd hb (hnone x b), fun x b hb => absurd hb (hnone x b)⟩
  · rintro b l l' ⟨src, dst, call, hmem, -⟩
    cases hmem
  · rintro b l ⟨src, dst, call, hmem, -⟩
    cases hmem

theorem lastInserted_bounded (h : Slotted n) (x : ℤ) : -1 ≤ (n.servers x).lastInserted := by
  rw [h.last x]
  omega

theorem lastInserted_le (h : Slotted n) (h' : ∀ x, (n'.servers x).EndsAtLast)
    (hlog : (n.servers x).log <+: (n'.servers x).log) :
    (n.servers x).lastInserted ≤ (n'.servers x).lastInserted := by
  rw [h.last x, h' x]
  have := hlog.length_le
  omega

theorem one_step (h : Slotted n) (hproposals : Proposals c n) (hstep : Stepped c n e n')
    (hslot : n'.Slot b l) (hslot' : n'.Slot b l') : l = l' := by
  have hrouted := hproposals.routed
  have hold : ∀ {l}, n.Slot b l → (n.servers b.serverId).ballotNum < b.num → False := by
    intro l hslot hlt
    have hbound := (hproposals.promising b.serverId).bound b (hslot.promised hrouted)
    exact absurd hbound.2 (not_le.mpr hlt)
  rcases hslot.before hrouted hstep with hslot | ⟨hlt, rfl⟩
  · rcases hslot'.before hrouted hstep with hslot' | ⟨hlt', -⟩
    · exact h.one b l l' hslot hslot'
    · exact (hold hslot hlt').elim
  · rcases hslot'.before hrouted hstep with hslot' | ⟨-, rfl⟩
    · exact (hold hslot' hlt).elim
    · rfl

theorem step (h : Slotted n) (hvoters : Voters c n)
    (hnext : Network.step c n e = some n') (hworking : e.working) : Slotted n' := by
  have hstep := step_stepped hnext
  have hproposals := hvoters.accounted.proposals
  have hlast : ∀ x, (n'.servers x).EndsAtLast :=
    hstep.server_invariant (I := fun _ s => s.EndsAtLast) h.last fun id _ _ _ hacts hr =>
      (hvoters.move hacts hr hworking).endsAtLast (h.last id)
  have hle : ∀ x, (n.servers x).lastInserted ≤ (n'.servers x).lastInserted :=
    fun x => h.lastInserted_le hlast ((step_stepped hnext).log_grows x)
  have hone : ∀ b l l', n'.Slot b l → n'.Slot b l' → l = l' :=
    fun b l l' hslot hslot' => h.one_step hproposals hstep hslot hslot'
  -- the slot of a new promise is above those of the promises before it
  have hnew : ∀ x b b' l l', n.Promised x b → n'.Slot b l → n'.Slot b' (n.servers x).lastInserted →
      n'.Slot b' l' → l ≤ l' := by
    intro x b b' l l' hpromised hslot hend hslot'
    rw [hone b' l' _ hslot' hend]
    exact h.below x b l hpromised (hslot.old hproposals hstep hpromised)
  refine ⟨hlast, hone, ?_, ?_, ?_, ?_⟩
  · intro b l hslot
    rcases hslot.before hproposals.routed hstep with hold | ⟨-, rfl⟩
    · exact h.bounded b l hold
    · exact h.lastInserted_bounded b.serverId
  · intro x b l hpromised hslot
    rcases hpromised.before hstep with hold | ⟨-, -, -, hend⟩
    · exact (h.below x b l hold (hslot.old hproposals hstep hold)).trans (hle x)
    · rw [hone b l _ hslot hend]
      exact hle x
  · intro x b b' l l' hpromised hpromised' hnum hslot hslot'
    rcases hpromised'.before hstep with hold' | ⟨hlt', rfl, -, hend'⟩
    · rcases hpromised.before hstep with hold | ⟨hlt, -⟩
      · exact h.grows x b b' l l' hold hold' hnum (hslot.old hproposals hstep hold)
          (hslot'.old hproposals hstep hold')
      · have hbound := ((hproposals.promising x).bound b' hold').2
        omega
    · rcases hpromised.before hstep with hold | ⟨-, rfl, -⟩
      · exact hnew x b _ l l' hold hslot hend' hslot'
      · exact (hone _ l l' hslot hslot').le
  · intro x b hpromised
    rcases hpromised.before hstep with hold | ⟨-, rfl, -⟩
    swap
    · exact le_rfl
    refine hstep.server_invariant (I := fun x s => ∀ b, n.Promised x b → b.num ≤ s.promisedNum.num)
      h.latest ?_ x b hold
    intro id fs input r hacts hr b hold
    rcases (hvoters.move hacts hr hworking).promisedNum with heq | hlt
    · rw [heq]
      exact h.latest id b hold
    · exact ((hproposals.promising id).bound b hold).2.trans hlt.le

end Slotted
end Network
end TpcBank
