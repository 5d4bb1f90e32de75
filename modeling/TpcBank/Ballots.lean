import TpcBank.Routing

/-! The discipline of ballot numbers: which steps can lower `ballot_num`, and what holds of
promises and rounds in the runs without such a step. -/
namespace TpcBank
open Transition

namespace Server

/-- The two assignments of a number received from a peer do not lower `ballot_num`. -/
def KeepsBallot (s : Server) (_ : FileSystem) : Input → Prop
  | .reply (.prepare _) status response =>
      status = .ok → s.awaitPrepareDecision = true →
        response.toPrepare.ballot.num = s.promisedNum.num →
        response.toPrepare.ballot.serverId = s.serverId →
        ∀ num ∈ response.toPrepare.latestBallotNum, s.ballotNum ≤ num
  | .reply (.sync _) status response =>
      status = .ok → response.toSync.ack = true →
        s.ballotNum ≤ response.toSync.lastInsertedBallot.num
  | _ => True

instance (s : Server) (fs : FileSystem) (input : Input) : Decidable (s.KeepsBallot fs input) := by
  refine Input.decidable (fun r => isTrue trivial) (fun r status response => ?_) input
  apply Request.decidable (P := fun r => s.KeepsBallot fs (.reply r status response))
  all_goals
    intros
    dsimp only [KeepsBallot]
    infer_instance

variable {c : Constants} {fs : FileSystem} {s : Server} {input : Input} {r : Handled}

theorem Acted.ballotNum_le (h : Acted c fs s input r) (hkeeps : s.KeepsBallot fs input) :
    s.ballotNum ≤ r.server.ballotNum := by
  cases h with
  | opened =>
    show s.ballotNum ≤ s.ballotNum + 1
    omega
  | promised request hconn hnum => exact hnum.le
  | prepareCounted request response ahead sent hprep hnum hid =>
    show s.ballotNum ≤ response.toPrepare.latestBallotNum.getD s.ballotNum
    cases hlatest : response.toPrepare.latestBallotNum with
    | none => exact le_rfl
    | some num => exact hkeeps rfl hprep hnum hid num hlatest
  | synced request response d hack => exact hkeeps rfl hack
  | _ => exact le_rfl

/-- A handler that does not lower the number meets the condition. -/
theorem keepsBallot_of_le (h : s.ballotNum ≤ (s.react c fs input).server.ballotNum) :
    s.KeepsBallot fs input := by
  unfold KeepsBallot
  split
  · rename_i request status response
    rintro rfl hprep hnum hid num hlatest
    rw [Option.mem_def] at hlatest
    have heq : (s.react c fs (.reply (.prepare request) .ok response)).server =
        (s.handlePrepareReply .ok request response.toPrepare).1 := by
      cases response <;> rfl
    have hset : (s.handlePrepareReply .ok request response.toPrepare).1.ballotNum = num := by
      unfold handlePrepareReply
      rw [if_neg (by simp [hprep]), if_neg (by simp), if_pos ⟨rfl, hnum, hid⟩]
      simp only [hlatest]
      cases response.toPrepare.lastInserted with
      | none => rfl
      | some l =>
        dsimp only
        split_ifs <;> rfl
    rwa [heq, hset] at h
  · rename_i request status response
    rintro rfl hack
    obtain ⟨res, rfl⟩ := Response.eq_sync_of_ack hack
    have hack : res.ack = true := hack
    have hset : (s.react c fs (.reply (.sync request) .ok (.sync res))).server.ballotNum =
        res.lastInsertedBallot.num := by
      show (s.handleSyncReply c fs .ok res).ballotNum = _
      simp [handleSyncReply, hack]
    rwa [hset] at h
  · trivial

/-- A handler that starts to await prepare replies has opened a round with the next ballot. -/
theorem Acted.opened_ballot (h : Acted c fs s input r) (hbefore : s.awaitPrepareDecision = false)
    (hafter : r.server.awaitPrepareDecision = true) :
    r.server.promisedNum = ⟨s.ballotNum + 1, s.serverId⟩ ∧
      r.server.ballotNum = s.ballotNum + 1 := by
  cases h with
  | opened => exact ⟨rfl, rfl⟩
  | prepareCounted request response ahead sent hprep =>
    rw [hbefore] at hprep
    cases hprep
  | _ => simp [hbefore] at hafter

end Server

namespace Network

/-- The server and the number of a Prepare that an event acknowledges. -/
def acknowledged (n : Network) : Event → Option (ℤ × ℤ)
  | .deliver i _ => do
      let call ← n.calls[i]?
      match call.request, call.response with
      | .prepare r, none =>
          match ((n.servers call.dst).processPrepareCall r).response with
          | some (.prepare res) => if res.ack then some (call.dst, r.ballot.num) else none
          | _ => none
      | _, _ => none
  | _ => none

/-- The server that opens a prepare round in an event, and the ballot of the round. -/
def roundOpened (c : Constants) (n : Network) (e : Event) : Option Ballot := do
  let (id, fs, input) ← acting n e
  let s := n.servers id
  let s' := (s.react c fs input).server
  if !s.awaitPrepareDecision && s'.awaitPrepareDecision then some s'.promisedNum else none

/-- The ballot numbers a server acknowledges, in their order. -/
def acks (c : Constants) (disk : ℤ → Disk) (es : List Event) (id : ℤ) : List ℤ :=
  ((observe (step c) acknowledged (init c disk) es).filter fun p => p.1 = id).map Prod.snd

/-- The ballots of the prepare rounds, in their order. -/
def rounds (c : Constants) (disk : ℤ → Disk) (es : List Event) : List Ballot :=
  observe (step c) (roundOpened c) (init c disk) es

structure BallotDiscipline (c : Constants) (disk : ℤ → Disk) (es : List Event) : Prop where
  never_decreases : ∀ es₁ e es₂ n n', es = es₁ ++ e :: es₂ →
    run (step c) (init c disk) es₁ = some n → step c n e = some n' →
    ∀ id, (n.servers id).ballotNum ≤ (n'.servers id).ballotNum
  acks_increase : ∀ id, (acks c disk es id).Pairwise (· < ·)
  rounds_distinct : (rounds c disk es).Nodup

variable {c : Constants} {n n' : Network} {e : Event}

theorem step_ballotNum_le (h : step c n e = some n') (hkeeps : Each Server.KeepsBallot n e)
    (id : ℤ) : (n.servers id).ballotNum ≤ (n'.servers id).ballotNum := by
  refine (step_stepped h).server_invariant (I := fun id s => (n.servers id).ballotNum ≤ s.ballotNum)
    (fun _ => le_rfl) ?_ id
  intro id fs input r hacts hr
  exact hr.ballotNum_le (hkeeps.acts hacts)

theorem keepsBallot_of_step (h : step c n e = some n')
    (hle : ∀ id, (n.servers id).ballotNum ≤ (n'.servers id).ballotNum) :
    Each Server.KeepsBallot n e := by
  apply each_of_acts
  intro id fs input hacts
  have hid := hle id
  rw [step_acts h hacts, Function.update_self] at hid
  exact Server.keepsBallot_of_le hid

theorem acknowledged_spec (h : step c n e = some n') {id num : ℤ}
    (hack : acknowledged n e = some (id, num)) :
    (n.servers id).ballotNum < num ∧ (n'.servers id).ballotNum = num := by
  cases e with
  | deliver i fs =>
    obtain ⟨call, hcall, hack⟩ := Option.bind_eq_some_iff.mp hack
    split at hack
    · rename_i r hrequest hnew
      have hacts : Acts n (.deliver i fs) call.dst fs (.request call.request) := .deliver hcall hnew
      have hservers := step_acts h hacts
      rw [hrequest] at hservers
      have hres := Server.processPrepareCall_result (s := n.servers call.dst) r
      change n'.servers = Function.update n.servers call.dst
        ((n.servers call.dst).processPrepareCall r).server at hservers
      generalize (n.servers call.dst).processPrepareCall r = result at hack hres hservers
      cases hres with
      | promised hconn hnum hlast =>
        simp only [if_true, Option.some.injEq, Prod.mk.injEq] at hack
        obtain ⟨rfl, rfl⟩ := hack
        refine ⟨hnum, ?_⟩
        rw [hservers, Function.update_self]
        rfl
      | refused inSync res sent hno =>
        simp [hno] at hack
    · simp at hack
  | _ => simp [acknowledged] at hack

theorem roundOpened_spec (h : step c n e = some n') {b : Ballot}
    (hopen : roundOpened c n e = some b) :
    ∃ id, b = ⟨(n.servers id).ballotNum + 1, (n.servers id).serverId⟩ ∧
      (n'.servers id).ballotNum = (n.servers id).ballotNum + 1 := by
  obtain ⟨⟨id, fs, input⟩, hact, hopen⟩ := Option.bind_eq_some_iff.mp hopen
  have hacts := acting_eq_some.mp hact
  dsimp only at hopen
  split_ifs at hopen with hawait
  simp only [Bool.and_eq_true, Bool.not_eq_true'] at hawait
  have hacted : (n.servers id).Acted c fs input _ := Server.react_acted input
  have hspec := hacted.opened_ballot hawait.1 hawait.2
  refine ⟨id, ?_, ?_⟩
  · rw [← Option.some.inj hopen, hspec.1]
  · rw [step_acts h hacts, Function.update_self, hspec.2]

/-- What the numbers acknowledged and opened so far have to do with the present numbers. -/
structure Bounded (c : Constants) (disk : ℤ → Disk) (es : List Event) (n : Network) : Prop where
  acks_le : ∀ id, ∀ num ∈ acks c disk es id, num ≤ (n.servers id).ballotNum
  acks_increase : ∀ id, (acks c disk es id).Pairwise (· < ·)
  rounds_le : ∀ b ∈ rounds c disk es, b.num ≤ (n.servers b.serverId).ballotNum
  rounds_distinct : (rounds c disk es).Nodup

theorem reaches_bounded {disk : ℤ → Disk} {es : List Event}
    (h : Reaches c (Each Server.KeepsBallot) disk es n) : Bounded c disk es n := by
  induction h with
  | refl =>
    exact ⟨by simp [acks, observe], by simp [acks, observe], by simp [rounds, observe],
      by simp [rounds, observe]⟩
  | @snoc es n n' e hrun hkeeps hstep ih =>
    have hle := step_ballotNum_le hstep hkeeps
    have hacks : ∀ id, acks c disk (es ++ [e]) id = acks c disk es id ++
        (((acknowledged n e).toList.filter fun p => p.1 = id).map Prod.snd) := by
      intro id
      unfold acks
      rw [hrun.observe_snoc, List.filter_append, List.map_append]
    have hrounds : rounds c disk (es ++ [e]) = rounds c disk es ++ (roundOpened c n e).toList :=
      hrun.observe_snoc e
    have hnew : ∀ id, ∀ num ∈ ((acknowledged n e).toList.filter fun p => p.1 = id).map Prod.snd,
        (n.servers id).ballotNum < num ∧ (n'.servers id).ballotNum = num := by
      intro id num hnum
      obtain ⟨p, hp, rfl⟩ := List.mem_map.mp hnum
      obtain ⟨hmem, hid⟩ := List.mem_filter.mp hp
      obtain rfl : p.1 = id := by simpa using hid
      exact acknowledged_spec hstep (Option.mem_toList.mp hmem)
    have hopened : ∀ b ∈ (roundOpened c n e).toList,
        (n.servers b.serverId).ballotNum < b.num ∧ (n'.servers b.serverId).ballotNum = b.num := by
      intro b hb
      obtain ⟨id, rfl, hnum⟩ := roundOpened_spec hstep (Option.mem_toList.mp hb)
      rw [(reaches_routed hrun).serverId id]
      exact ⟨by simp, hnum⟩
    constructor
    · intro id num hnum
      rw [hacks] at hnum
      rcases List.mem_append.mp hnum with hold | hlast
      · exact (ih.acks_le id num hold).trans (hle id)
      · exact (hnew id num hlast).2.ge
    · intro id
      rw [hacks, List.pairwise_append]
      refine ⟨ih.acks_increase id, ?_, fun a ha b hb =>
        (ih.acks_le id a ha).trans_lt (hnew id b hb).1⟩
      cases acknowledged n e with
      | none => simp
      | some p => by_cases hp : p.1 = id <;> simp [hp]
    · intro b hb
      rw [hrounds] at hb
      rcases List.mem_append.mp hb with hold | hlast
      · exact (ih.rounds_le b hold).trans (hle b.serverId)
      · exact (hopened b hlast).2.ge
    · rw [hrounds, List.nodup_append]
      refine ⟨ih.rounds_distinct, by cases roundOpened c n e <;> simp, ?_⟩
      rintro b hb b' hb' rfl
      have := (ih.rounds_le b hb).trans_lt (hopened b hb').1
      omega

/-- The ballot discipline holds in exactly the runs in which no number received from a peer
lowers `ballot_num`. -/
theorem ballotDiscipline_iff {disk : ℤ → Disk} {es : List Event}
    (h : Reaches c (fun _ _ => True) disk es n) :
    BallotDiscipline c disk es ↔ Reaches c (Each Server.KeepsBallot) disk es n := by
  constructor
  · intro hd
    have hnever := hd.never_decreases
    clear hd
    induction h with
    | refl => exact .refl
    | @snoc es n n' e hrun _ hstep ih =>
      refine (ih ?_).snoc (keepsBallot_of_step hstep ?_) hstep
      · intro es₁ e' es₂ m m' hes hrun₁ hstep'
        exact hnever es₁ e' (es₂ ++ [e]) m m' (by simp [hes]) hrun₁ hstep'
      · exact hnever es e [] n n' rfl hrun.run_eq hstep
  · intro hkeeps
    have hbounded := reaches_bounded hkeeps
    refine ⟨?_, hbounded.acks_increase, hbounded.rounds_distinct⟩
    clear h hbounded
    induction hkeeps with
    | refl =>
      intro es₁ e es₂ m m' hes
      simp at hes
    | @snoc es n n' e hrun hk hstep ih =>
      intro es₁ d es₂ m m' hes hrun₁ hstep₁
      rcases List.eq_nil_or_concat es₂ with rfl | ⟨es₃, d', rfl⟩
      · obtain ⟨rfl, hd⟩ := List.append_inj' hes rfl
        obtain rfl := List.singleton_inj.mp hd
        obtain rfl : n = m := Option.some.inj (hrun.run_eq.symm.trans hrun₁)
        exact step_ballotNum_le hstep₁ hk
      · have hes' : es ++ [e] = (es₁ ++ d :: es₃) ++ [d'] := by simpa using hes
        obtain ⟨rfl, -⟩ := List.append_inj' hes' rfl
        exact ih es₁ d es₃ m m' rfl hrun₁ hstep₁

/-- Server 1 commits a transfer with server 2 while server 3 only promises. -/
def promisedRun : List Event :=
  [.call 1 (.transfer ⟨⟨1, 2, 3⟩, 1⟩), .arrives 0, .arrives 1, .arrives 2, .returns 1, .arrives 0,
    .arrives 3, .returns 3, .arrives 0, .arrives 5]

theorem ballotDiscipline_promisedRun :
    BallotDiscipline .single (fun _ => .empty) promisedRun := by
  obtain ⟨n, hn⟩ := Option.isSome_iff_exists.mp
    (show (runIf (step .single) (Each Server.KeepsBallot) (init .single fun _ => .empty)
      promisedRun).isSome = true by decide +kernel)
  have hkeeps := runs_of_runIf hn
  exact (ballotDiscipline_iff (hkeeps.mono fun _ _ _ => trivial)).mpr hkeeps

/-- Server 3 opens a round with ballot 2, is told that it is behind, synchronizes with
server 2, whose last ballot is 1, and opens a round with ballot 2 again. -/
def reopenedRun : List Event :=
  promisedRun ++ [.call 3 (.transfer ⟨⟨3, 4, 1⟩, 2⟩), .arrives 7, .arrives 9, .returns 9,
    .arrives 10, .returns 10, .arrives 7]

theorem not_ballotDiscipline_reopenedRun :
    (run (step .single) (init .single fun _ => .empty) reopenedRun).isSome = true ∧
      ¬ BallotDiscipline .single (fun _ => .empty) reopenedRun := by
  refine ⟨by decide +kernel, fun h => ?_⟩
  exact absurd h.rounds_distinct (by decide +kernel)

end Network
end TpcBank
