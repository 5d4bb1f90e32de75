import TpcBank.Quorums
import Mathlib.Data.List.DropRight

/-! Whether a round can wait for ever. A round counts the ends of its calls, one by one, so once
all have ended one of its two counters has reached the majority, if each end is counted. -/
namespace TpcBank
open Transition

/-- The two decisions that a round awaits. -/
inductive Phase
  | prepare
  | accept
  deriving DecidableEq

instance {P : Phase → Prop} [DecidablePred P] : Decidable (∀ ph, P ph) :=
  decidable_of_iff (P .prepare ∧ P .accept)
    ⟨fun h ph => match ph with | .prepare => h.1 | .accept => h.2, fun h => ⟨h _, h _⟩⟩

namespace Phase

def awaits : Phase → Server → Bool
  | .prepare, s => s.awaitPrepareDecision
  | .accept, s => s.awaitAcceptDecision

def successes : Phase → Server → ℕ
  | .prepare, s => s.prepareSuccesses
  | .accept, s => s.acceptSuccesses

def failures : Phase → Server → ℕ
  | .prepare, s => s.prepareFailures
  | .accept, s => s.acceptFailures

/-- The ballot that the replies of the phase are compared with. -/
def current : Phase → Server → Ballot
  | .prepare, s => s.promisedNum
  | .accept, s => s.acceptNum

/-- The ballot of a call of the phase. -/
def ballot : Phase → Request → Option Ballot
  | .prepare, .prepare r => some r.ballot
  | .accept, .accept r => some r.ballot
  | _, _ => none

/-- The ballot of the answer to a call of the phase. -/
def answer : Phase → Response → Ballot
  | .prepare, response => response.toPrepare.ballot
  | .accept, response => response.toAccept.ballot

def Decided (ph : Phase) (s : Server) : Prop :=
  Server.majority ≤ ph.successes s ∨ Server.majority ≤ ph.failures s

instance (ph : Phase) (s : Server) : Decidable (ph.Decided s) :=
  inferInstanceAs (Decidable (_ ∨ _))

end Phase

namespace Server

variable {c : Constants} {fs : FileSystem} {s : Server} {input : Input} {r : Handled}

/-- A phase begins with its calls and with the success of the server itself. -/
structure Begins (ph : Phase) (s : Server) (r : Handled) : Prop where
  sent : ∃ request b, ph.ballot request = some b ∧ r.sent = s.broadcast request
  successes : ph.successes r.server = 1

/-- A phase goes on or ends: nothing is sent for it, and what was counted stays counted. -/
structure GoesOn (ph : Phase) (s : Server) (r : Handled) : Prop where
  sent : ∀ o ∈ r.sent, ph.ballot o.request = none
  kept : ph.awaits r.server = true → ph.awaits s = true ∧
    ph.successes s ≤ ph.successes r.server ∧ ph.failures s ≤ ph.failures r.server

theorem ballot_broadcast {ph : Phase} {request : Request} (h : ph.ballot request = none) :
    ∀ o ∈ s.broadcast request, ph.ballot o.request = none := by
  intro o ho
  rw [(mem_broadcast.mp ho).2, h]

theorem Acted.phase_cases (h : Acted c fs s input r) (ph : Phase) :
    Begins ph s r ∨ GoesOn ph s r := by
  cases ph with
  | prepare =>
    cases h with
    | opened => exact .inl ⟨⟨_, _, rfl, rfl⟩, rfl⟩
    | rejected => exact .inr ⟨by simp, fun ha => absurd ha Bool.false_ne_true⟩
    | accepting => exact .inr ⟨ballot_broadcast rfl, fun ha => absurd ha Bool.false_ne_true⟩
    | finished => exact .inr ⟨ballot_broadcast rfl, fun ha => absurd ha Bool.false_ne_true⟩
    | committed => exact .inr ⟨ballot_broadcast rfl, fun ha => absurd ha Bool.false_ne_true⟩
    | refused request inSync res sent hack hballot hlatest hsent =>
      refine .inr ⟨?_, fun ha => ⟨ha, le_rfl, le_rfl⟩⟩
      intro o ho
      rw [(hsent o ho).1]
      rfl
    | prepareFailed request status response hprep =>
      exact .inr ⟨by simp, fun _ => ⟨hprep, le_rfl, Nat.le_succ _⟩⟩
    | prepareCounted request response ahead sent hprep hnum hid hsent =>
      refine .inr ⟨?_, fun _ => ⟨hprep, ?_, ?_⟩⟩
      · intro o ho
        rw [hsent o ho]
        rfl
      · simp only [Phase.successes, countPrepare]
        split_ifs <;> omega
      · simp only [Phase.failures, countPrepare]
        split_ifs <;> omega
    | _ => exact .inr ⟨by simp, fun ha => ⟨ha, le_rfl, le_rfl⟩⟩
  | accept =>
    cases h with
    | opened isCrossShard request hown hprep hacc =>
      exact .inr ⟨ballot_broadcast rfl, fun ha => ⟨ha, le_rfl, le_rfl⟩⟩
    | accepting => exact .inl ⟨⟨_, _, rfl, rfl⟩, rfl⟩
    | failed => exact .inr ⟨by simp, fun ha => absurd ha Bool.false_ne_true⟩
    | finished => exact .inr ⟨ballot_broadcast rfl, fun ha => absurd ha Bool.false_ne_true⟩
    | committed => exact .inr ⟨ballot_broadcast rfl, fun ha => absurd ha Bool.false_ne_true⟩
    | refused request inSync res sent hack hballot hlatest hsent =>
      refine .inr ⟨?_, fun ha => ⟨ha, le_rfl, le_rfl⟩⟩
      intro o ho
      rw [(hsent o ho).1]
      rfl
    | prepareCounted request response ahead sent hprep hnum hid hsent =>
      refine .inr ⟨?_, fun ha => ⟨ha, le_rfl, le_rfl⟩⟩
      intro o ho
      rw [hsent o ho]
      rfl
    | acceptFailed request status response hacc =>
      exact .inr ⟨by simp, fun _ => ⟨hacc, le_rfl, Nat.le_succ _⟩⟩
    | acceptCounted request response hacc =>
      exact .inr ⟨by simp, fun _ => ⟨hacc, Nat.le_succ _, le_rfl⟩⟩
    | _ => exact .inr ⟨by simp, fun ha => ⟨ha, le_rfl, le_rfl⟩⟩

/-! ### Counting -/

theorem handlePrepareReply_counts {status : Status} {q : PrepareReq} {res : PrepareRes}
    (hawait : s.awaitPrepareDecision = true) (hstatus : status ≠ .otherError)
    (hnum : q.ballot.num = s.promisedNum.num) (hid : q.ballot.serverId = s.serverId)
    (hanswer : status = .ok → res.ballot = q.ballot) :
    let t := (s.handlePrepareReply status q res).1
    t.prepareSuccesses + t.prepareFailures = s.prepareSuccesses + s.prepareFailures + 1 := by
  unfold handlePrepareReply
  rw [hawait]
  cases status with
  | otherError => exact absurd rfl hstatus
  | deadlineExceeded =>
    simp only [Bool.not_true, Bool.false_eq_true, if_false, hnum, hid, and_self, if_true]
    omega
  | ok =>
    have hballot := hanswer rfl
    simp only [Bool.not_true, Bool.false_eq_true, if_false, reduceCtorEq, false_and, hballot, hnum,
      hid, and_self, if_true]
    cases res.ack <;> cases res.latestBallotNum <;> cases res.lastInserted <;>
      · dsimp only
        split_ifs <;> dsimp only <;> omega

theorem handleAcceptReply_counts {status : Status} {q : AcceptReq} {res : AcceptRes}
    (hawait : s.awaitAcceptDecision = true) (hstatus : status ≠ .otherError)
    (hnum : q.ballot.num = s.acceptNum.num) (hid : q.ballot.serverId = s.serverId)
    (hanswer : status = .ok → res.ballot = q.ballot) :
    let t := s.handleAcceptReply status q res
    t.acceptSuccesses + t.acceptFailures = s.acceptSuccesses + s.acceptFailures + 1 := by
  unfold handleAcceptReply
  rw [hawait]
  cases status with
  | otherError => exact absurd rfl hstatus
  | deadlineExceeded =>
    simp only [Bool.not_true, Bool.false_eq_true, if_false, hnum, hid, and_self, if_true]
    omega
  | ok =>
    have hballot := hanswer rfl
    simp only [Bool.not_true, Bool.false_eq_true, if_false, reduceCtorEq, false_and, hballot, hnum,
      hid, and_self, if_true]
    split_ifs <;> dsimp only <;> omega

/-- The end of a call is counted while the ballots agree, unless it is some other error. -/
theorem react_counts {ph : Phase} {request : Request} {status : Status} {response : Response}
    {b : Ballot} (hballot : ph.ballot request = some b) (hawait : ph.awaits s = true)
    (hstatus : status ≠ .otherError) (hnum : b.num = (ph.current s).num)
    (hid : b.serverId = s.serverId) (hanswer : status = .ok → ph.answer response = b) :
    let t := (s.react c fs (.reply request status response)).server
    ph.successes t + ph.failures t = ph.successes s + ph.failures s + 1 := by
  cases ph with
  | prepare =>
    cases request with
    | prepare q =>
      obtain rfl : q.ballot = b := Option.some.inj hballot
      have h := handlePrepareReply_counts hawait hstatus hnum hid hanswer
      cases response <;> exact h
    | _ => cases hballot
  | accept =>
    cases request with
    | accept q =>
      obtain rfl : q.ballot = b := Option.some.inj hballot
      have h := handleAcceptReply_counts hawait hstatus hnum hid hanswer
      cases response <;> exact h
    | _ => cases hballot

end Server

/-- A call that a server has sent for a phase. -/
def Call.isOf (ph : Phase) (p : ℤ) (call : Call) : Bool :=
  decide (call.src = some p) && (ph.ballot call.request).isSome

namespace Network

variable {c : Constants} {n n' : Network} {e : Event} {ph : Phase} {p : ℤ}

/-! ### The calls of a round -/

/-- The positions of the calls that a server has sent for a phase. -/
def callsOf (ph : Phase) (n : Network) (p : ℤ) : List ℕ := n.calls.findIdxs (Call.isOf ph p)

/-- Those of its current round: the last ones, one to each peer. -/
def latest (ph : Phase) (n : Network) (p : ℤ) : List ℕ :=
  (n.callsOf ph p).rtake (n.servers p).stubs.length

/-- A call is over for the server that sent it. -/
def ended (n : Network) (i : ℕ) : Bool := n.calls[i]?.any Call.completed

/-! ### The property -/

/-- While no synchronization is going on, a server that awaits a decision has the majority of one
of its counters, or a call of the round is outstanding. -/
def NoWedgedRound (n : Network) (p : ℤ) : Prop :=
  (n.servers p).inSync = false → ∀ ph : Phase, ph.awaits (n.servers p) = true →
    (∀ i ∈ n.latest ph p, n.ended i = true) → ph.Decided (n.servers p)

/-- A call of the current round that ends while it is undecided ends with OK or by its deadline,
and the ballot that replies are compared with is still that of the call, the server's own. -/
def CountsReplies (p : ℤ) (n : Network) : Event → Prop
  | .complete i status _ => ∀ ph : Phase, i ∈ n.latest ph p → ∀ call ∈ n.calls[i]?,
      ∀ b ∈ ph.ballot call.request, ph.awaits (n.servers p) = true →
        ¬ ph.Decided (n.servers p) →
        status ≠ .otherError ∧ b.num = (ph.current (n.servers p)).num ∧ b.serverId = p
  | _ => True

instance (p : ℤ) (n : Network) (e : Event) : Decidable (CountsReplies p n e) :=
  match e with
  | .call _ _ => inferInstanceAs (Decidable True)
  | .deliver _ _ => inferInstanceAs (Decidable True)
  | .complete _ _ _ => by
      dsimp only [CountsReplies]
      infer_instance

/-! ### Every end is counted -/

/-- While a phase is awaited and undecided, its counters add up to the ends of its calls. -/
structure Counted (ph : Phase) (n : Network) (p : ℤ) : Prop where
  length : ph.awaits (n.servers p) = true → (n.latest ph p).length = (n.servers p).stubs.length
  ends : ph.awaits (n.servers p) = true → ¬ ph.Decided (n.servers p) →
    1 + (n.latest ph p).countP n.ended ≤ ph.successes (n.servers p) + ph.failures (n.servers p)

theorem counted_init (c : Constants) (disk : ℤ → Disk) (ph : Phase) (p : ℤ) :
    Counted ph (init c disk) p := by
  have hawaits : ph.awaits ((init c disk).servers p) = false := by cases ph <;> rfl
  constructor
  · intro ha
    rw [hawaits] at ha
    cases ha
  · intro ha
    rw [hawaits] at ha
    cases ha

theorem findIdxs_set {P : Call → Bool} {calls : List Call} {i : ℕ} {b b' : Call}
    (hcall : calls[i]? = some b) (hP : P b' = P b) (k : ℕ) :
    (calls.set i b').findIdxs P k = calls.findIdxs P k := by
  induction calls generalizing i k with
  | nil => simp at hcall
  | cons call calls ih =>
    cases i with
    | zero =>
      obtain rfl : call = b := by simpa using hcall
      simp [hP]
    | succ i =>
      have hrest := ih (by simpa using hcall) (k + 1)
      simp [hrest]

/-- No new call of the phase: the positions stay the same. -/
theorem callsOf_set {i : ℕ} {b b' : Call} {more : List Call} (hcall : n.calls[i]? = some b)
    (hcalls : n'.calls = n.calls.set i b' ++ more) (hb : b'.isOf ph p = b.isOf ph p)
    (hmore : ∀ call ∈ more, call.isOf ph p = false) : n'.callsOf ph p = n.callsOf ph p := by
  unfold callsOf
  rw [hcalls, List.findIdxs_append, findIdxs_set hcall hb, List.findIdxs_eq_nil_iff.mpr hmore,
    List.append_nil]

theorem exists_of_mem_latest {j : ℕ} (h : j ∈ n.latest ph p) :
    ∃ call, n.calls[j]? = some call ∧ call.isOf ph p = true := by
  obtain ⟨hj, hof⟩ := List.mem_findIdxs_iff_exists_getElem_pos.mp (List.mem_of_mem_drop h)
  exact ⟨_, List.getElem?_eq_getElem hj, hof⟩

theorem isOf_of_mem_latest {j : ℕ} {call : Call} (hcall : n.calls[j]? = some call)
    (h : j ∈ n.latest ph p) : call.isOf ph p = true := by
  obtain ⟨call', hcall', hof⟩ := exists_of_mem_latest h
  rwa [Option.some.inj (hcall.symm.trans hcall')]

theorem nodup_latest : (n.latest ph p).Nodup :=
  List.nodup_findIdxs.sublist (List.drop_sublist _ _)

theorem countP_le_succ {l : List ℕ} (hl : l.Nodup) {P Q : ℕ → Bool} {i : ℕ}
    (h : ∀ j ∈ l, j ≠ i → Q j = true → P j = true) : l.countP Q ≤ l.countP P + 1 := by
  induction l with
  | nil => simp
  | cons j l ih =>
    obtain ⟨hj, hl⟩ := List.nodup_cons.mp hl
    rw [List.countP_cons, List.countP_cons]
    by_cases hji : j = i
    · have hrest : l.countP Q ≤ l.countP P := by
        apply List.countP_mono_left
        intro k hk
        exact h k (List.mem_cons_of_mem j hk) fun hki => hj (hji.trans hki.symm ▸ hk)
      split_ifs <;> omega
    · have hrest := ih hl fun k hk => h k (List.mem_cons_of_mem j hk)
      have hhead := h j List.mem_cons_self hji
      by_cases hQ : Q j = true
      · rw [if_pos hQ, if_pos (hhead hQ)]
        omega
      · rw [if_neg hQ]
        omega

/-- A phase that goes on stays counted when the ends of its calls are counted. -/
theorem Counted.goesOn {r : Handled} (h : Counted ph n p) (hr : Server.GoesOn ph (n.servers p) r)
    (hserver : n'.servers p = r.server) (hstubs : r.server.stubs = (n.servers p).stubs)
    (hcalls : n'.callsOf ph p = n.callsOf ph p)
    (hends : ph.awaits r.server = true → ¬ ph.Decided (n.servers p) →
      (n.latest ph p).countP n'.ended + (ph.successes (n.servers p) + ph.failures (n.servers p)) ≤
        (n.latest ph p).countP n.ended + (ph.successes r.server + ph.failures r.server)) :
    Counted ph n' p := by
  have hlatest : n'.latest ph p = n.latest ph p := by
    unfold latest
    rw [hcalls, hserver, hstubs]
  constructor
  · rw [hlatest, hserver, hstubs]
    exact fun ha => h.length (hr.kept ha).1
  · rw [hlatest, hserver]
    intro hafter hundecided
    obtain ⟨ha, hsuccesses, hfailures⟩ := hr.kept hafter
    have hbefore : ¬ ph.Decided (n.servers p) := by
      unfold Phase.Decided at hundecided ⊢
      omega
    have hcount := h.ends ha hbefore
    have hnew := hends hafter hbefore
    omega

/-- A phase that goes on, in a step that ends none of its calls. -/
theorem Counted.kept {r : Handled} (h : Counted ph n p) (hr : Server.GoesOn ph (n.servers p) r)
    (hserver : n'.servers p = r.server) (hstubs : r.server.stubs = (n.servers p).stubs)
    (hcalls : n'.callsOf ph p = n.callsOf ph p)
    (hended : ∀ j ∈ n.latest ph p, n'.ended j = n.ended j) : Counted ph n' p := by
  refine h.goesOn hr hserver hstubs hcalls ?_
  intro hafter _
  obtain ⟨-, hsuccesses, hfailures⟩ := hr.kept hafter
  rw [List.countP_congr fun j hj => by rw [hended j hj]]
  omega

/-- What another server does. -/
theorem Counted.quiet (h : Counted ph n p) (hserver : n'.servers p = n.servers p)
    (hcalls : n'.callsOf ph p = n.callsOf ph p)
    (hended : ∀ j ∈ n.latest ph p, n'.ended j = n.ended j) : Counted ph n' p := by
  have hidle : Server.GoesOn ph (n.servers p) ⟨n.servers p, none, []⟩ :=
    ⟨by simp, fun ha => ⟨ha, le_rfl, le_rfl⟩⟩
  exact h.kept hidle hserver rfl hcalls hended

theorem ended_set {i j : ℕ} {b b' : Call} {more : List Call} (hcall : n.calls[i]? = some b)
    (hcalls : n'.calls = n.calls.set i b' ++ more) (hj : j ∈ n.latest ph p)
    (hb : i = j → b'.completed = b.completed) : n'.ended j = n.ended j := by
  obtain ⟨call, hget, -⟩ := exists_of_mem_latest hj
  have hlen : j < n.calls.length := (List.getElem?_eq_some_iff.mp hget).1
  unfold ended
  rw [hcalls, List.getElem?_append_left (by simpa using hlen), List.getElem?_set]
  by_cases hij : i = j
  · subst hij
    rw [if_pos rfl, if_pos hlen, hcall, Option.any_some, Option.any_some, hb rfl]
  · rw [if_neg hij]

/-- At most one call of the round ends. -/
theorem countP_ended_le {i : ℕ} {b b' : Call} {more : List Call} (hcall : n.calls[i]? = some b)
    (hcalls : n'.calls = n.calls.set i b' ++ more) :
    (n.latest ph p).countP n'.ended ≤ (n.latest ph p).countP n.ended + 1 := by
  apply countP_le_succ nodup_latest
  intro j hj hne hended
  rwa [ended_set hcall hcalls hj fun hij => absurd hij.symm hne] at hended

/-- A phase that begins is counted. -/
theorem counted_begins {r : Handled} {calls : List Call}
    (hr : Server.Begins ph (n.servers p) r) (hserver : n'.servers p = r.server)
    (hstubs : r.server.stubs = (n.servers p).stubs)
    (hcalls : n'.calls = calls ++ outCalls p r.sent) : Counted ph n' p := by
  obtain ⟨request, b, hb, hsent⟩ := hr.sent
  have hall : ∀ call ∈ outCalls p r.sent, call.isOf ph p = true := by
    intro call hmem
    obtain ⟨ho, hsrc, -⟩ := mem_outCalls.mp hmem
    rw [hsent] at ho
    have hrequest := (Server.mem_broadcast.mp ho).2
    dsimp only at hrequest
    simp [Call.isOf, hsrc, hrequest, hb]
  have hlen : ((outCalls p r.sent).findIdxs (Call.isOf ph p) (0 + calls.length)).length =
      (n'.servers p).stubs.length := by
    rw [List.length_findIdxs, List.countP_eq_length.mpr hall, hserver, hstubs, hsent]
    simp [outCalls, Server.broadcast]
  have hlatest : n'.latest ph p =
      (outCalls p r.sent).findIdxs (Call.isOf ph p) (0 + calls.length) := by
    unfold latest callsOf List.rtake
    rw [hcalls, List.findIdxs_append, ← hlen, List.length_append, Nat.add_sub_cancel]
    exact List.drop_left
  have hopen : (n'.latest ph p).countP n'.ended = 0 := by
    rw [List.countP_eq_zero, hlatest]
    intro j hj
    obtain ⟨hlow, hhigh, -⟩ := List.mem_findIdxs_iff_getElem_sub_pos.mp hj
    rw [Nat.zero_add] at hlow hhigh
    have hcompleted := (mem_outCalls.mp (List.getElem_mem hhigh)).2.2.2
    unfold ended
    rw [hcalls, List.getElem?_append_right hlow, List.getElem?_eq_getElem hhigh, Option.any_some,
      hcompleted]
    exact Bool.false_ne_true
  constructor
  · intro _
    rw [hlatest, hlen]
  · intro _ _
    rw [hopen, hserver, hr.successes]
    omega

theorem isOf_outCalls {id : ℤ} (hid : id ≠ p) (sent : List OutCall) :
    ∀ call ∈ outCalls id sent, call.isOf ph p = false := by
  intro call hmem
  simp [Call.isOf, (mem_outCalls.mp hmem).2.1, hid]

theorem isOf_of_goesOn {r : Handled} (hr : Server.GoesOn ph (n.servers p) r) :
    ∀ call ∈ outCalls p r.sent, call.isOf ph p = false := by
  intro call hmem
  have hballot : ph.ballot call.request = none := hr.sent _ (mem_outCalls.mp hmem).1
  simp [Call.isOf, hballot]

/-- The end of a call of the round that is counted. -/
theorem counted_reply (hrouted : Routed c n) (hstep : step c n e = some n')
    (hcounts : CountsReplies p n e) {i : ℕ} {status : Status} {fs : FileSystem} {call : Call}
    (he : e = .complete i status fs) (hcall : n.calls[i]? = some call)
    (hopen : canComplete call status = true) (hsrc : call.src = some p)
    (hi : i ∈ n.latest ph p) (hawait : ph.awaits (n.servers p) = true)
    (hundecided : ¬ ph.Decided (n.servers p)) :
    ph.successes (n'.servers p) + ph.failures (n'.servers p) =
      ph.successes (n.servers p) + ph.failures (n.servers p) + 1 := by
  subst he
  have hacts : Acts n (.complete i status fs) p fs _ := .complete hcall hopen hsrc
  obtain ⟨b, hb⟩ := Option.isSome_iff_exists.mp
    (Bool.and_eq_true_iff.mp (isOf_of_mem_latest hcall hi)).2
  obtain ⟨hstatus, hnum, hid⟩ := hcounts ph hi call hcall b hb hawait hundecided
  rw [step_acts hstep hacts, Function.update_self]
  apply Server.react_counts hb hawait hstatus hnum (hid.trans (hrouted.serverId p).symm)
  intro hok
  obtain ⟨res, hres⟩ : ∃ res, call.response = some res :=
    Option.isSome_iff_exists.mp (by simpa [canComplete, hok] using (Bool.and_eq_true_iff.mp hopen).2)
  have hmem := List.mem_of_getElem? hcall
  rw [hres, Option.getD_some]
  cases ph with
  | prepare =>
    cases hrequest : call.request with
    | prepare q =>
      rw [hrequest] at hb
      obtain ⟨reply, rfl, hballot, -⟩ :=
        hrouted.prepareAnswer _ _ q res ⟨call, hmem, rfl, rfl, hrequest, hres⟩
      exact hballot.trans (Option.some.inj hb)
    | _ =>
      rw [hrequest] at hb
      cases hb
  | accept =>
    cases hrequest : call.request with
    | accept q =>
      rw [hrequest] at hb
      obtain ⟨reply, rfl, hballot⟩ :=
        hrouted.acceptAnswer _ _ q res ⟨call, hmem, rfl, rfl, hrequest, hres⟩
      exact hballot.trans (Option.some.inj hb)
    | _ =>
      rw [hrequest] at hb
      cases hb

theorem Counted.step (h : Counted ph n p) (hrouted : Routed c n) (hstep : step c n e = some n')
    (hcounts : CountsReplies p n e) : Counted ph n' p := by
  cases step_stepped hstep with
  | called dst request =>
    refine h.quiet rfl ?_ ?_
    · unfold callsOf
      rw [List.findIdxs_append]
      simp [Call.isOf]
    · intro j hj
      obtain ⟨call, hget, -⟩ := exists_of_mem_latest hj
      unfold ended
      rw [List.getElem?_append_left (List.getElem?_eq_some_iff.mp hget).1]
  | delivered i fs call r hcall hnew hr =>
    by_cases hdst : call.dst = p
    · subst hdst
      have hserver : Function.update n.servers call.dst r.server call.dst = r.server :=
        Function.update_self _ _ _
      have hstubs : r.server.stubs = (n.servers call.dst).stubs :=
        congrArg (fun x => x.2.2) hr.identity
      rcases hr.phase_cases ph with hbegins | hgoes
      · exact counted_begins hbegins hserver hstubs rfl
      · exact h.kept hgoes hserver hstubs (callsOf_set hcall rfl rfl (isOf_of_goesOn hgoes))
          fun j hj => ended_set hcall rfl hj fun _ => rfl
    · exact h.quiet (Function.update_of_ne (Ne.symm hdst) _ _)
        (callsOf_set hcall rfl rfl (isOf_outCalls hdst r.sent))
        fun j hj => ended_set hcall rfl hj fun _ => rfl
  | ended i status fs call hcall hopen hsrc =>
    have hother : call.isOf ph p = false := by simp [Call.isOf, hsrc]
    refine h.quiet rfl (callsOf_set hcall (List.append_nil _).symm rfl (by simp)) ?_
    intro j hj
    refine ended_set hcall (List.append_nil _).symm hj ?_
    rintro rfl
    exact absurd hother (by simp [isOf_of_mem_latest hcall hj])
  | completed i status fs call src r hcall hopen hsrc hr =>
    by_cases hp : src = p
    · subst hp
      have hserver : Function.update n.servers src r.server src = r.server :=
        Function.update_self _ _ _
      have hstubs : r.server.stubs = (n.servers src).stubs :=
        congrArg (fun x => x.2.2) hr.identity
      rcases hr.phase_cases ph with hbegins | hgoes
      · exact counted_begins hbegins hserver hstubs rfl
      · by_cases hi : i ∈ n.latest ph src
        · -- one more call has ended, and one more end is counted
          refine h.goesOn hgoes hserver hstubs
            (callsOf_set hcall rfl rfl (isOf_of_goesOn hgoes)) ?_
          intro hafter hundecided
          have hawait := (hgoes.kept hafter).1
          have hreply := counted_reply hrouted hstep hcounts rfl hcall hopen hsrc hi hawait
            hundecided
          dsimp only at hreply
          rw [hserver] at hreply
          apply (Nat.add_le_add_right (countP_ended_le hcall rfl) _).trans
          omega
        · refine h.kept hgoes hserver hstubs (callsOf_set hcall rfl rfl (isOf_of_goesOn hgoes)) ?_
          intro j hj
          refine ended_set hcall rfl hj ?_
          rintro rfl
          exact absurd hj hi
    · have hother : call.isOf ph p = false := by simp [Call.isOf, hsrc, hp]
      refine h.quiet (Function.update_of_ne (Ne.symm hp) _ _)
        (callsOf_set hcall rfl rfl (isOf_outCalls hp r.sent)) ?_
      intro j hj
      refine ended_set hcall rfl hj ?_
      rintro rfl
      exact absurd hother (by simp [isOf_of_mem_latest hcall hj])

theorem reaches_counted {disk : ℤ → Disk} {es : List Event}
    (hrun : Reaches c (CountsReplies p) disk es n) (ph : Phase) : Routed c n ∧ Counted ph n p := by
  apply hrun.invariant ⟨routed_init c disk, counted_init c disk ph p⟩
  intro n e n' hn hcounts hstep
  exact ⟨hn.1.step (step_stepped hstep), hn.2.step hn.1 hstep hcounts⟩

/-- In a cluster of three, no round is wedged in a run that counts the replies of the server. -/
theorem reaches_noWedgedRound (hsize : c.clusterSize = 3)
    (hp : 1 ≤ p ∧ p ≤ c.numClusters * c.clusterSize) {disk : ℤ → Disk} {es : List Event}
    (hrun : Reaches c (CountsReplies p) disk es n) : n.NoWedgedRound p := by
  intro _ ph hawait hended
  obtain ⟨hrouted, hcounted⟩ := reaches_counted hrun ph
  by_contra hundecided
  have hlength : (n.latest ph p).length = 2 := by
    have hpeers := c.length_peers hp
    rw [hcounted.length hawait, hrouted.stubs p]
    omega
  have hcount := hcounted.ends hawait hundecided
  rw [List.countP_eq_length.mpr hended, hlength] at hcount
  unfold Phase.Decided Server.majority at hundecided
  omega

/-- Server 1 opens a round, and both calls of it end with the given status. -/
def roundEndingWith (status : Status) : List Event :=
  [.call 1 (.transfer ⟨⟨1, 2, 3⟩, 1⟩), .arrives 0, .complete 1 status .allOpen,
    .complete 2 status .allOpen]

theorem noWedgedRound_deadlines :
    ∃ n, run (step .single) (init .single fun _ => .empty) (roundEndingWith .deadlineExceeded) =
      some n ∧ n.NoWedgedRound 1 := by
  obtain ⟨n, hn⟩ := Option.isSome_iff_exists.mp
    (show (runIf (step .single) (CountsReplies 1) (init .single fun _ => .empty)
      (roundEndingWith .deadlineExceeded)).isSome = true by decide +kernel)
  have hcounts := runs_of_runIf hn
  exact ⟨n, hcounts.run_eq, reaches_noWedgedRound rfl (by decide) hcounts⟩

/-- Another error, as of a peer that is not there, is counted by neither counter. -/
theorem not_noWedgedRound_otherErrors :
    ∃ n, run (step .single) (init .single fun _ => .empty) (roundEndingWith .otherError) =
      some n ∧ ¬ n.NoWedgedRound 1 := by
  obtain ⟨n, hn, hstate⟩ := (Option.any_eq_true _ _).mp
    (show (run (step .single) (init .single fun _ => .empty) (roundEndingWith .otherError)).any
      (fun n => decide ((n.servers 1).inSync = false ∧
        Phase.prepare.awaits (n.servers 1) = true ∧
        (∀ i ∈ n.latest .prepare 1, n.ended i = true) ∧
        ¬ Phase.prepare.Decided (n.servers 1))) = true by decide +kernel)
  obtain ⟨hsync, hawait, hended, hundecided⟩ := of_decide_eq_true hstate
  exact ⟨n, hn, fun h => hundecided (h hsync .prepare hawait hended)⟩

end Network
end TpcBank
