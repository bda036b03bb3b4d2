/-
# Fencing

A primary that sees a higher epoch is fenced: it acknowledges no more writes
and steps down. The flag belongs to the process and is never taken down.

* `winner_serves_iff`: a winner serves exactly if it was never fenced.
* `fenced_winner_steps_down`: a member that was fenced, stepped down and won a
  later election refuses its own commits and steps down again.
-/
import Fluxum.ReplicaSet.Ballots

namespace Fluxum.ReplicaSet

open List

/-- Member `i` does not crash in the step, and is shown no epoch above its own. -/
def calm (i : Nat) (s : System) (l : Label) : Bool :=
  if l.who = i then
    match l.event, (s.member i).proc with
    | .act .crash, _ => false
    | .deliver k _, some p =>
      match s.net[k]?.map Packet.msg with
      | some (.replicaHello _ epoch _) => epoch ≤ p.primaryEpoch
      | some (.replAck epoch _) => epoch ≤ p.primaryEpoch
      | _ => true
    | _, _ => true
  else true

/-- Since `s`, member `i` has been answering commits: it is primary in `t`, and no barrier of its
own has failed for a fence. -/
def Serves (i : Nat) (s t : System) : Prop :=
  (∃ p, (t.member i).proc = some p ∧ p.isPrimary = true) ∧
    ∃ new, t.obs = s.obs ++ new ∧ ∀ call, (i, .barrier call .fenced) ∉ new

/-! ### An unfenced primary -/

/-- A parked primary that is not fenced. -/
structure Proc.Serving (p : Proc) : Prop where
  primary : p.isPrimary = true
  unfenced : p.fenced = false
  parked : p.task = .parked

/-- The reaction keeps a serving process serving, and no barrier fails for a fence. -/
structure Undisturbed (r : Reaction) : Prop where
  serving : ∃ p, r.member.proc = some p ∧ p.Serving
  obs : ∀ call, .barrier call .fenced ∉ r.obs

variable {cfg : Config} {i : Nat} {m : Member} {p : Proc} {r : Reaction}

theorem Acts.undisturbed {a : Action} (h : Acts cfg i m p a r) (hp : m.proc = some p)
    (hserving : p.Serving) (hcrash : a ≠ .crash) : Undisturbed r := by
  obtain ⟨hprimary, hfenced, hparked⟩ := hserving
  cases h with
  | crash => exact absurd rfl hcrash
  | nextEpoch htask | stand htask | cannotStand htask | lose htask | win htask | connect htask
  | endSession htask | ackTick htask => simp [hparked] at htask
  | demote _ hf | barrierFenced hf | turnFenced hf => simp [hfenced] at hf
  | commit | heartbeat | barrierOk | prune => exact ⟨⟨p, hp, hprimary, hfenced, hparked⟩, by simp⟩
  | stream | dropSession | barrierHold => exact ⟨⟨_, rfl, hprimary, hfenced, hparked⟩, by simp⟩
  | turnOk _ _ => exact ⟨⟨_, rfl, hprimary, hfenced, hparked⟩, by simp [release]⟩
  | timeout _ =>
    refine ⟨⟨_, rfl, hprimary, hfenced, hparked⟩, fun call => ?_⟩
    simp only [release]
    split_ifs <;> simp

theorem Receives.undisturbed {src : Nat} {msg : Msg} (h : Receives i m p src msg r) (hp : m.proc = some p)
    (hserving : p.Serving) (hhello : ∀ conn epoch n, msg = .replicaHello conn epoch n → epoch ≤ p.primaryEpoch)
    (hack : ∀ epoch n, msg = .replAck epoch n → epoch ≤ p.primaryEpoch) : Undisturbed r := by
  obtain ⟨hprimary, hfenced, hparked⟩ := hserving
  cases h with
  | grant _ => exact ⟨⟨_, rfl, hprimary, hfenced, hparked⟩, by simp⟩
  | deny | refuse => exact ⟨⟨p, hp, hprimary, hfenced, hparked⟩, by simp⟩
  | count htask _ _ => simp [hparked] at htask
  | fencedByHello _ hepoch => exact absurd (hhello _ _ _ rfl) (by omega)
  | accept _ _ _ _ => exact ⟨⟨_, rfl, hprimary, hfenced, hparked⟩, by simp [openSession]⟩
  | ack =>
    obtain ⟨pe, fenced, ss, heq, -, hsame, -⟩ := ack_frame p src _ _
    refine ⟨⟨_, rfl, ?_⟩, by simp⟩
    rw [heq]
    exact ⟨hprimary, by rw [(hsame (hack _ _ rfl)).2]; exact hfenced, hparked⟩
  | established hf | installed hf | cannotInstall hf | fence hf | heartbeat hf | staleBatch hf | batch hf
  | batchFails hf => simp [Proc.session, hparked] at hf

/-! ### Runs -/

/-- The member's process is serving. -/
def Undeposed (i : Nat) (s : System) : Prop := ∃ p, (s.member i).proc = some p ∧ p.Serving

/-- **Step lemma.** -/
theorem Undeposed.step {s s' : System} {l : Label} (hs : Undeposed i s) (hl : calm i s l = true)
    (h : step cfg s l = some s') :
    Undeposed i s' ∧ ∃ new, s'.obs = s.obs ++ new ∧ ∀ call, (i, .barrier call .fenced) ∉ new := by
  obtain ⟨p, hp, hserving⟩ := hs
  obtain ⟨j, event⟩ := l
  obtain ⟨net, r, -, hcause, rfl⟩ := step_cases h
  by_cases hj : j = i
  · subst hj
    suffices hr : Undisturbed r by
      refine ⟨?_, _, rfl, fun call hmem => ?_⟩
      · simpa [Undeposed] using hr.serving
      · simp only [mem_map, Prod.mk.injEq, true_and] at hmem
        obtain ⟨o, ho, rfl⟩ := hmem
        exact hr.obs call ho
    cases hcause with
    | restart hnone => simp [hp] at hnone
    | act hp' hacts =>
      cases hp.symm.trans hp'
      refine hacts.undisturbed hp hserving fun hcrash => ?_
      simp [calm, hcrash] at hl
    | deliver hp' hpkt _ hreceives =>
      cases hp.symm.trans hp'
      refine hreceives.undisturbed hp hserving (fun conn epoch n hmsg => ?_) (fun epoch n hmsg => ?_)
      · simpa [calm, hp, hpkt, hmsg] using hl
      · simpa [calm, hp, hpkt, hmsg] using hl
  · refine ⟨⟨p, by rw [System.react_member_ne (Ne.symm hj), hp], hserving⟩, _, rfl, fun call hmem => ?_⟩
    simp only [mem_map, Prod.mk.injEq] at hmem
    obtain ⟨o, -, h, -⟩ := hmem
    exact hj h

theorem Undeposed.serves {s t : System} {ls : List Label} (hs : Undeposed i s)
    (hcalm : Runs.Meets (ReplicaSet.step cfg) (fun s l => calm i s l = true) s ls)
    (hrun : Runs.run (ReplicaSet.step cfg) s ls = some t) : Serves i s t := by
  -- The invariant: serving, and the observations since `s` are in order.
  suffices h : Undeposed i t ∧ ∃ new, t.obs = s.obs ++ new ∧ ∀ call, (i, .barrier call .fenced) ∉ new by
    obtain ⟨⟨p, hp, hserving⟩, hnew⟩ := h
    exact ⟨⟨p, hp, hserving.primary⟩, hnew⟩
  refine Runs.run_invariant_of_meets (I := fun u => Undeposed i u ∧ ∃ new, u.obs = s.obs ++ new ∧
    ∀ call, (i, .barrier call .fenced) ∉ new) (fun u l u' hu hl h => ?_) ⟨hs, [], by simp, by simp⟩ hcalm hrun
  obtain ⟨hu, new, hobs, hnew⟩ := hu
  obtain ⟨hu', new', hobs', hnew'⟩ := hu.step hl h
  refine ⟨hu', new ++ new', by rw [hobs', hobs, append_assoc], fun call hmem => ?_⟩
  rcases mem_append.mp hmem with hmem | hmem
  · exact hnew call hmem
  · exact hnew' call hmem

/-- **A won election yields a working primary** if and only if the winner was not fenced before:
then it stays primary, and no barrier of its later transactions fails for a fence, in every run in
which it does not crash and no higher epoch is shown to it. -/
theorem winner_serves_iff (cfg : Config) {s s' : System} {i e : Nat} {b b' : Bool}
    (hstep : step cfg s ⟨i, .act (.conclude b b')⟩ = some s') (hbefore : s.hasPromoted i e = false)
    (hwon : s'.hasPromoted i e = true) :
    (∀ ls t, Runs.Meets (step cfg) (fun s l => calm i s l = true) s' ls →
      Runs.run (step cfg) s' ls = some t → Serves i s' t) ↔
    ∀ p, (s.member i).proc = some p → p.fenced = false := by
  -- a promotion leaves the member parked as primary, its flag as it was
  obtain ⟨p, p', hp, hp', hsame, hprimary, hparked, hi⟩ : ∃ p p', (s.member i).proc = some p ∧
      (s'.member i).proc = some p' ∧ p'.fenced = p.fenced ∧ p'.isPrimary = true ∧ p'.task = .parked ∧ i < cfg.members := by
    obtain ⟨net, r, hi, hcause, rfl⟩ := step_cases hstep
    cases hcause with
    | @act p _ _ hp hacts =>
      cases hacts with
      | lose _ _ =>
        simp only [System.hasPromoted, System.react, endSession, map_nil, append_nil] at hwon
        rw [System.hasPromoted, hwon] at hbefore
        cases hbefore
      | win htask _ _ =>
        exact ⟨p, _, hp, congrArg Member.proc System.react_member_self, rfl, rfl, rfl, hi⟩
  constructor
  · intro hserves q hq
    cases hp.symm.trans hq
    by_contra hfenced
    have hfenced : p'.fenced = true := by simpa [hsame] using hfenced
    -- The election loop looks at the flag and steps down.
    have hdemote : step cfg s' ⟨i, .act .demote⟩ = some (s'.react i s'.net
        (endSession { s'.member i with epochFile := p'.primaryEpoch } (p'.setRole false p'.primaryEpoch))) := by
      simp [step, hi, hp', actUp, demote, hparked, hfenced]
    obtain ⟨⟨q, hq, hrole⟩, -⟩ := hserves [⟨i, .act .demote⟩] _
      ⟨by simp [calm], fun _ _ => trivial⟩ (by rw [Runs.run_cons_eq_some]; exact ⟨_, hdemote, rfl⟩)
    rw [System.react_member_self] at hq
    cases hq
    cases hrole
  · intro hfenced ls t hcalm hrun
    have hs' : Undeposed i s' := ⟨p', hp', hprimary, by rw [hsame, hfenced p hp], hparked⟩
    exact hs'.serves hcalm hrun

/-- Member 1 of three replicas was never fenced: elected, it serves. -/
theorem winner_serves_iff_electOne : ∃ s s',
    Runs.run (step threeReplicas) (System.init threeReplicas) (electOne.take 4) = some s ∧
      step threeReplicas s ⟨1, .act (.conclude true true)⟩ = some s' ∧ s'.hasPromoted 1 2 = true ∧
      ∀ ls t, Runs.Meets (step threeReplicas) (fun s l => calm 1 s l = true) s' ls →
        Runs.run (step threeReplicas) s' ls = some t → Serves 1 s' t := by
  obtain ⟨s, hs, hbefore, hfenced, s', hs', hwon⟩ :
      ∃ s ∈ Runs.run (step threeReplicas) (System.init threeReplicas) (electOne.take 4),
        s.hasPromoted 1 2 = false ∧ (∀ p ∈ (s.member 1).proc, p.fenced = false) ∧
        ∃ s' ∈ step threeReplicas s ⟨1, .act (.conclude true true)⟩, s'.hasPromoted 1 2 = true := by
    decide +kernel
  exact ⟨s, s', hs, hs', hwon, (winner_serves_iff threeReplicas hs' hbefore hwon).mpr hfenced⟩

/-! ### A fenced member wins -/

/-- Three members, the first configured as primary. -/
def threeMembers : Config := ⟨3, fun i => i = 0, none⟩

def emptyRecord (txId : Nat) : TxRecord := ⟨txId, 0, 0, [], [], [], "noop"⟩

/-- Member 1 wins epoch 2 with the vote of member 2, which then follows it and learns the epoch.
When member 2 turns to member 0, that one is fenced and steps down; it stands in epoch 3, and
member 2 votes for it. -/
def fencedThenStands : List Label :=
  [⟨1, .act .nextEpoch⟩, ⟨1, .act (.selfBallot true)⟩, ⟨2, arrives 1⟩, ⟨1, arrives 1⟩,
    ⟨1, .act (.conclude true true)⟩,
    ⟨2, .act (.connect 1)⟩, ⟨1, arrives 1⟩, ⟨2, arrives 1⟩, ⟨2, .act .endSession⟩,
    ⟨2, .act (.connect 0)⟩, ⟨0, arrives 1⟩, ⟨0, .act .demote⟩,
    ⟨0, .act .nextEpoch⟩, ⟨0, .act (.selfBallot true)⟩, ⟨2, arrives 3⟩, ⟨0, arrives 3⟩]

/-- The winner commits a transaction, takes it to the barrier, and looks at the flag. -/
def commitsThenLooks : List Label :=
  [⟨0, .act (.commit (emptyRecord 1))⟩, ⟨0, .act (.barrier 1)⟩, ⟨0, .act .demote⟩]

/-- Whether a barrier of the member has failed for a fence. -/
def System.refusedCommit (s : System) (i : Nat) : Bool :=
  s.obs.any fun
    | (j, .barrier _ .fenced) => i = j
    | _ => false

/-- Member 0 is promoted in epoch 3, and though nothing happens but its own commit, the commit is
refused for the old fence and member 0 steps down. -/
theorem fenced_winner_steps_down : ∃ s s' t,
    Runs.run (step threeMembers) (System.init threeMembers) fencedThenStands = some s ∧
      step threeMembers s ⟨0, .act (.conclude true true)⟩ = some s' ∧
      s.hasPromoted 0 3 = false ∧ s'.hasPromoted 0 3 = true ∧
      Runs.Meets (step threeMembers) (fun s l => calm 0 s l = true) s' commitsThenLooks ∧
      Runs.run (step threeMembers) s' commitsThenLooks = some t ∧
      s'.refusedCommit 0 = false ∧ t.refusedCommit 0 = true ∧
      (t.member 0).proc.any (·.isPrimary) = false := by
  obtain ⟨s, hs, s', hs', hnot, hpromoted, hcalm, t, ht, hrefused⟩ :
      ∃ s ∈ Runs.run (step threeMembers) (System.init threeMembers) fencedThenStands,
        ∃ s' ∈ step threeMembers s ⟨0, .act (.conclude true true)⟩,
          s.hasPromoted 0 3 = false ∧ s'.hasPromoted 0 3 = true ∧
          Runs.Meets (step threeMembers) (fun s l => calm 0 s l = true) s' commitsThenLooks ∧
          ∃ t ∈ Runs.run (step threeMembers) s' commitsThenLooks, s'.refusedCommit 0 = false ∧
            t.refusedCommit 0 = true ∧ (t.member 0).proc.any (·.isPrimary) = false := by
    decide +kernel
  exact ⟨s, s', t, hs, hs', hnot, hpromoted, hcalm, ht, hrefused⟩

end Fluxum.ReplicaSet
