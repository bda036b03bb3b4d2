/-
# The replica set

The members of a replica set and the messages between them. A step is one
member's: it acts of its own accord, it takes a message that is on its way,
or it restarts. Messages arrive in any order, late or never, and a process
may crash between any two steps.
-/
import Fluxum.Lib.Runs
import Fluxum.ReplicaSet.Reactions

namespace Fluxum.ReplicaSet

open Option

structure System where
  member : Nat → Member
  net : List Packet
  obs : List (Nat × Obs)

inductive Event where
  | act (a : Action)
  | restart
  /-- The `k`-th message on its way arrives. -/
  | deliver (k : Nat) (choice : Choice)

/-- Which member takes the step, and what happens to it. -/
structure Label where
  who : Nat
  event : Event

/-- A member reacts; `net` is what is still on its way. -/
def System.react (s : System) (i : Nat) (net : List Packet) (r : Reaction) : System where
  member := Function.update s.member i r.member
  net := net ++ r.out
  obs := s.obs ++ r.obs.map (i, ·)

def restart (cfg : Config) (i : Nat) (m : Member) : Reaction :=
  { member := m.withProc (boot cfg i m) }

def step (cfg : Config) (s : System) (l : Label) : Option System :=
  let i := l.who
  let m := s.member i
  if i < cfg.members then
    match l.event, m.proc with
    | .act a, some p => (actUp cfg i m p a).map (s.react i s.net)
    | .restart, none => some (s.react i s.net (restart cfg i m))
    | .deliver k choice, some p =>
      s.net[k]?.bind fun pkt =>
        if pkt.dst = i then
          (receive i m p pkt.src choice pkt.msg).map (s.react i (s.net.eraseIdx k))
        else none
    | _, _ => none
  else none

/-- What has been seen between two states of a run. -/
def System.newObs (s s' : System) : List (Nat × Obs) := s'.obs.drop s.obs.length

/-- A member with empty disks, booted. -/
def Member.fresh (cfg : Config) (i : Nat) : Member :=
  let m : Member := ⟨1, none, [], 0, 0, none⟩
  m.withProc (boot cfg i m)

def System.init (cfg : Config) : System := ⟨Member.fresh cfg, [], []⟩

/-! ### The kinds of step -/

/-- How a member comes to a reaction. -/
inductive Cause (cfg : Config) (s : System) (i : Nat) : Event → List Packet → Reaction → Prop where
  | act {p a r} : (s.member i).proc = some p → Acts cfg i (s.member i) p a r →
      Cause cfg s i (.act a) s.net r
  | restart : (s.member i).proc = none → Cause cfg s i .restart s.net (restart cfg i (s.member i))
  | deliver {p k choice pkt r} : (s.member i).proc = some p → s.net[k]? = some pkt → pkt.dst = i →
      Receives i (s.member i) p pkt.src pkt.msg r →
      Cause cfg s i (.deliver k choice) (s.net.eraseIdx k) r

theorem step_cases {cfg : Config} {s s' : System} {l : Label} (h : step cfg s l = some s') :
    ∃ net r, l.who < cfg.members ∧ Cause cfg s l.who l.event net r ∧ s' = s.react l.who net r := by
  obtain ⟨i, event⟩ := l
  unfold step at h
  simp only at h
  split_ifs at h with hi
  split at h
  · next a p hp =>
    obtain ⟨r, hr, rfl⟩ := map_eq_some_iff.mp h
    exact ⟨_, r, hi, .act hp (actUp_acts hr), rfl⟩
  · next hp =>
    cases h
    exact ⟨_, _, hi, .restart hp, rfl⟩
  · next k choice p hp =>
    obtain ⟨pkt, hpkt, h⟩ := bind_eq_some_iff.mp h
    split_ifs at h with hdst
    obtain ⟨r, hr, rfl⟩ := map_eq_some_iff.mp h
    exact ⟨_, r, hi, .deliver hp hpkt hdst (receive_receives hr), rfl⟩
  · cases h

theorem Cause.net_subset {cfg : Config} {s : System} {i : Nat} {event : Event} {net : List Packet}
    {r : Reaction} (h : Cause cfg s i event net r) : ∀ pkt ∈ net, pkt ∈ s.net := by
  cases h with
  | act | restart => exact fun _ h => h
  | deliver _ _ _ _ => exact fun _ h => List.mem_of_mem_eraseIdx h

namespace System

variable {s : System} {i j : Nat} {net : List Packet} {r : Reaction}

@[simp] theorem react_member_self : (s.react i net r).member i = r.member := by
  simp [react]

@[simp] theorem react_member_ne (h : j ≠ i) : (s.react i net r).member j = s.member j := by
  simp [react, h]

theorem react_member (s : System) (i : Nat) (net : List Packet) (r : Reaction) (j : Nat) :
    j = i ∧ (s.react i net r).member j = r.member ∨ j ≠ i ∧ (s.react i net r).member j = s.member j := by
  by_cases hj : j = i
  · exact .inl ⟨hj, hj ▸ react_member_self⟩
  · exact .inr ⟨hj, react_member_ne hj⟩

theorem mem_react_net {pkt : Packet} :
    pkt ∈ (s.react i net r).net ↔ pkt ∈ net ∨ pkt ∈ r.out := List.mem_append

theorem mem_react_obs {j : Nat} {o : Obs} :
    (j, o) ∈ (s.react i net r).obs ↔ (j, o) ∈ s.obs ∨ (j = i ∧ o ∈ r.obs) := by
  simp only [react, List.mem_append, List.mem_map, Prod.mk.injEq]
  constructor
  · rintro (h | ⟨o', ho', rfl, rfl⟩)
    · exact .inl h
    · exact .inr ⟨rfl, ho'⟩
  · rintro (h | ⟨rfl, ho⟩)
    · exact .inl h
    · exact .inr ⟨o, ho, rfl, rfl⟩

theorem newObs_react : s.newObs (s.react i net r) = r.obs.map (i, ·) := by
  simp [newObs, react]

theorem obs_subset {x : Nat × Obs} (h : x ∈ s.obs) : x ∈ (s.react i net r).obs :=
  List.mem_append_left _ h

end System

end Fluxum.ReplicaSet
