/-
# Token rotation

`http.rs`: a request resolves its session token, looks the session up, and
may re-key it under a fresh token when it writes back. The old token stays in
the grace map for a while. Every section under a lock is a step, so the
re-keying and its grace entry are two.

* `rotated_tokens_resolve`: in careful runs a rotated token resolves to its
  session until its deadline, and not after it.
* `second_rotation_strands`: a second rotation strands the first token.
* `token_leads_to_own_session`: in every run a token leads to no session but
  its own.
-/
import Fluxum.Lib.Runs
import Mathlib.Logic.Function.Basic

namespace Fluxum.Rotation

open Runs Function

/-- Where a request stands between two sections. -/
inductive Request where
  | idle
  /-- The token is no session's id. -/
  | missed (token : Nat)
  | resolved (token : Nat) (id : Option Nat)
  | found (id : Nat)
  /-- The session is under its new id; the grace entry is still to come. -/
  | rekeyed (old new : Nat)
  /-- The session is gone; grace entries that lead to it are still there. -/
  | evicted (id : Nat)

/-- Tokens are named by their at-rest ids, and a session by the first of its ids. -/
structure Http where
  sessions : Nat → Option Nat
  /-- The current id and the deadline of a rotated token. -/
  grace : Nat → Option (Nat × Nat)
  now : Nat
  requests : Nat → Request
  /-- The session that an id was minted for. -/
  minted : Nat → Option Nat
  /-- When the grace period of a rotated token ends. -/
  rotated : Nat → Option Nat

inductive Label where
  | arrive (r token : Nat)
  | follow (r : Nat)
  | lookup (r : Nat)
  /-- With the fresh token, if the request has authenticated or the rotation is due. -/
  | writeBack (r : Nat) (minted : Option Nat)
  | insertGrace (r : Nat)
  | create (minted : Nat)
  | evict (r id : Nat)
  | forget (r : Nat)
  | tick

namespace Http

def move (s : Http) (r : Nat) (q : Request) : Http := { s with requests := update s.requests r q }

/-- The grace entries that have not expired. -/
def inWindow (s : Http) (token : Nat) : Option (Nat × Nat) := (s.grace token).filter (s.now < ·.2)

def resolve (s : Http) (token : Nat) : Option Nat :=
  if (s.sessions token).isSome then some token else (s.inWindow token).map Prod.fst

def rekey (s : Http) (r id x new : Nat) : Http :=
  { s with
    sessions := update (update s.sessions id none) new (some x)
    requests := update s.requests r (.rekeyed id new)
    minted := update s.minted new (some x) }

def insertGrace (s : Http) (grace r old new : Nat) : Http :=
  { s with
    grace := update s.grace old (some (new, s.now + grace))
    requests := update s.requests r .idle
    rotated := update s.rotated old (some (s.now + grace)) }

end Http

/-- `grace` is `rotate_grace`. -/
def step (grace : Nat) (s : Http) : Label → Option Http
  | .arrive r token =>
    match s.requests r with
    | .idle => some (s.move r (if (s.sessions token).isSome then .resolved token (some token) else .missed token))
    | _ => none
  | .follow r =>
    match s.requests r with
    | .missed token =>
      some { s with
        grace := s.inWindow
        requests := update s.requests r (.resolved token ((s.inWindow token).map Prod.fst)) }
    | _ => none
  | .lookup r =>
    match s.requests r with
    | .resolved _ (some id) => some (s.move r (if (s.sessions id).isSome then .found id else .idle))
    | .resolved _ none => some (s.move r .idle)
    | _ => none
  | .writeBack r minted =>
    match s.requests r with
    | .found id =>
      match s.sessions id, minted with
      | some x, some new => if (s.minted new).isSome then none else some (s.rekey r id x new)
      | _, _ => some (s.move r .idle)
    | _ => none
  | .insertGrace r =>
    match s.requests r with
    | .rekeyed old new => some (s.insertGrace grace r old new)
    | _ => none
  | .create id =>
    if (s.minted id).isSome then none
    else some { s with sessions := update s.sessions id (some id), minted := update s.minted id (some id) }
  | .evict r id =>
    match s.requests r with
    | .idle =>
      if (s.sessions id).isSome then
        some { s with sessions := update s.sessions id none, requests := update s.requests r (.evicted id) }
      else none
    | _ => none
  | .forget r =>
    match s.requests r with
    | .evicted id =>
      some { s with
        grace := fun token => if token = id then none else (s.grace token).filter (·.1 ≠ id)
        requests := update s.requests r .idle }
    | _ => none
  | .tick => some { s with now := s.now + 1 }

def start : Http := ⟨fun _ => none, fun _ => none, 0, fun _ => .idle, fun _ => none, fun _ => none⟩

structure Careful (s : Http) (l : Label) : Prop where
  /-- A token is not followed between the re-keying and its grace entry. -/
  follow : ∀ q token, l = .follow q → s.requests q = .missed token → ∀ r new, s.requests r ≠ .rekeyed token new
  /-- A session is not rotated while a request that has resolved to it is still to look it up. -/
  settled : ∀ r new id, l = .writeBack r (some new) → s.requests r = .found id →
    ∀ q token res, s.requests q = .resolved token res → token ≠ id ∧ res ≠ some id
  /-- Nor while an older token of it is in grace, or about to be. -/
  once : ∀ r new id, l = .writeBack r (some new) → s.requests r = .found id →
    (∀ token cur d, s.grace token = some (cur, d) → s.now < d → cur ≠ id) ∧
      ∀ q old, s.requests q ≠ .rekeyed old id

/-! ### Every run -/

/-- Between two steps of any run: what leads from one id to another stays with the session. -/
structure Owned (s : Http) : Prop where
  named : ∀ id x, s.minted id = some x → s.minted x = some x
  session : ∀ id x, s.sessions id = some x → s.minted id = some x
  graceOf : ∀ token cur d, s.grace token = some (cur, d) →
    (s.minted token).isSome ∧ s.minted cur = s.minted token ∧ s.rotated token = some d
  rekeyed : ∀ r old new, s.requests r = .rekeyed old new → (s.minted old).isSome ∧ s.minted new = s.minted old
  resolved : ∀ r token id, s.requests r = .resolved token (some id) →
    token = id ∨ (s.minted token).isSome ∧ s.minted id = s.minted token ∧ (s.rotated token).isSome

variable {grace : Nat} {s s' : Http} {l : Label} {q : Request} {r id old new x token : Nat}

theorem Owned.move (h : Owned s) (hre : ∀ old new, q ≠ .rekeyed old new)
    (hres : ∀ token id, q = .resolved token (some id) → token = id ∨
      (s.minted token).isSome ∧ s.minted id = s.minted token ∧ (s.rotated token).isSome) : Owned (s.move r q) := by
  cases h
  constructor <;> simp only [Http.move]
  case rekeyed | resolved => grind [update_apply]
  all_goals assumption

theorem grace_of_inWindow {p : Nat × Nat} (h : s.inWindow token = some p) : s.grace token = some p ∧ s.now < p.2 := by
  simpa [Http.inWindow, Option.filter_eq_some_iff] using h

theorem of_update_eq {β : Type*} {f : Nat → β} {a b : Nat} {v y : β} (h : update f a v b = y) :
    b = a ∧ v = y ∨ f b = y := by
  by_cases hb : b = a
  · subst hb
    exact .inl ⟨rfl, by rwa [update_self] at h⟩
  · exact .inr (by rwa [update_of_ne hb] at h)

/-- **Step lemma.** -/
theorem Owned.step (h : Owned s) (hs : step grace s l = some s') : Owned s' := by
  cases l <;> simp only [Rotation.step] at hs <;> (repeat' split at hs) <;> cases hs
  -- `arrive`, at a session's id or not
  · exact h.move nofun fun _ _ hq => .inl (by cases hq; rfl)
  · exact h.move nofun nofun
  -- `follow`
  · refine Owned.move (s := { s with grace := s.inWindow }) { h with graceOf := ?_ } nofun fun token id hq => .inr ?_
    · exact fun token cur d hg => h.graceOf token cur d (grace_of_inWindow hg).1
    · obtain ⟨rfl, hmap⟩ := Request.resolved.inj hq
      obtain ⟨⟨cur, d⟩, hg, rfl⟩ := Option.map_eq_some_iff.mp hmap
      obtain ⟨hsome, hkin, hrot⟩ := h.graceOf _ cur d (grace_of_inWindow hg).1
      exact ⟨hsome, hkin, by simp [hrot]⟩
  · exact h.move nofun nofun
  · exact h.move nofun nofun
  · exact h.move nofun nofun
  -- `writeBack`
  · cases h
    constructor <;> simp only [Http.rekey] <;> grind [update_apply]
  · exact h.move nofun nofun
  -- `insertGrace`
  · cases h
    constructor <;> simp only [Http.insertGrace]
    case graceOf | rekeyed | resolved => grind [update_apply]
    all_goals assumption
  -- `create`
  · cases h
    constructor <;> grind [update_apply]
  -- `evict`
  · cases h
    constructor
    case session | rekeyed | resolved => grind [update_apply]
    all_goals assumption
  -- `forget`
  · cases h
    constructor
    case graceOf | rekeyed | resolved => grind [update_apply, Option.filter_eq_some_iff]
    all_goals assumption
  -- `tick`
  · exact { h with session := h.session }

/-- Between two steps of a careful run. -/
structure Inv (s : Http) : Prop where
  own : Owned s
  inj : ∀ a b x, s.sessions a = some x → s.sessions b = some x → a = b
  retired : ∀ token d, s.rotated token = some d → (s.minted token).isSome ∧ s.sessions token = none
  gone : ∀ r old new, s.requests r = .rekeyed old new → s.sessions old = none
  evicted : ∀ r id, s.requests r = .evicted id → (s.minted id).isSome ∧ s.sessions id = none ∧ s.rotated id = none
  kept : ∀ r id p new, s.requests r = .evicted id → s.requests p ≠ .rekeyed id new
  moved : ∀ r old new x id, s.requests r = .rekeyed old new → s.minted old = some x → s.sessions id = some x → id = new
  unresolved : ∀ r old new p res, s.requests r = .rekeyed old new → s.requests p ≠ .resolved old res
  follows : ∀ token x d id, s.minted token = some x → s.rotated token = some d → s.now < d → s.sessions id = some x →
    s.grace token = some (id, d)
  resolved : ∀ r token res x d id, s.requests r = .resolved token res → s.minted token = some x →
    s.rotated token = some d → s.now < d → s.sessions id = some x → res = some id

theorem Inv.move (h : Inv s) (hown : Owned (s.move r q)) (hre : ∀ old new, q ≠ .rekeyed old new)
    (hev : ∀ id, q ≠ .evicted id)
    (hres : ∀ token res, q = .resolved token res → (∀ p new, s.requests p ≠ .rekeyed token new) ∧
      ∀ x d id, s.minted token = some x → s.rotated token = some d → s.now < d → s.sessions id = some x →
        res = some id) : Inv (s.move r q) := by
  cases h
  constructor <;> simp only [Http.move]
  case own => exact hown
  case gone | evicted | kept | moved | unresolved | resolved => grind [update_apply]
  all_goals assumption

theorem Inv.insertGrace (h : Inv s) (hown : Owned (s.insertGrace grace r old new))
    (hr : s.requests r = .rekeyed old new) : Inv (s.insertGrace grace r old new) := by
  have hold := (h.own.rekeyed r old new hr).1
  have h' := h
  cases h'
  constructor <;> simp only [Http.insertGrace]
  case own => exact hown
  case inj => assumption
  case resolved =>
    intro p token res x d id hp hx hrot
    rcases of_update_eq hp with ⟨-, hp⟩ | hp
    · cases hp
    rcases of_update_eq hrot with ⟨rfl, -⟩ | hrot
    · exact absurd hp (h.unresolved r token new p res hr)
    · exact h.resolved p token res x d id hp hx hrot
  all_goals grind [update_apply]

/-- The session moves to an id that no grace entry leads to. -/
theorem Inv.rekey (h : Inv s) (hown : Owned (s.rekey r id x new)) (hx : s.sessions id = some x)
    (hnew : ¬ (s.minted new).isSome)
    (hsettled : ∀ p token res, s.requests p = .resolved token res → token ≠ id ∧ res ≠ some id)
    (honce : ∀ token cur d, s.grace token = some (cur, d) → s.now < d → cur ≠ id)
    (hlast : ∀ p old, s.requests p ≠ .rekeyed old id) : Inv (s.rekey r id x new) := by
  have hid := h.own.session id x hx
  have hsome := fun p old new hp => (h.own.rekeyed p old new hp).1
  have hquiet : ∀ token d, s.rotated token = some d → s.now < d → s.minted token ≠ some x := fun token d hr hn hm =>
    honce token id d (h.follows token x d id hm hr hn hx) hn rfl
  have h' := h
  cases h'
  constructor <;> simp only [Http.rekey]
  case own => exact hown
  case resolved =>
    intro p token res y d a hp hy hrot hn ha
    rcases of_update_eq hp with ⟨-, hp⟩ | hp
    · cases hp
    rcases of_update_eq hy with ⟨rfl, -⟩ | hy
    · exact absurd (h.retired token d hrot).1 hnew
    rcases of_update_eq ha with ⟨-, hxy⟩ | ha
    · cases hxy
      exact absurd hy (hquiet token d hrot hn)
    rcases of_update_eq ha with ⟨-, ha⟩ | ha
    · cases ha
    · exact h.resolved p token res y d a hp hy hrot hn ha
  all_goals grind [update_apply]

/-- **Step lemma.** -/
theorem Inv.step (h : Inv s) (hc : Careful s l) (hs : step grace s l = some s') : Inv s' := by
  have hown := h.own.step hs
  cases l <;> simp only [Rotation.step] at hs <;> (repeat' split at hs) <;> cases hs
  -- `arrive`, at a session's id or not
  · next r token _ hsome =>
    obtain ⟨x, hx⟩ := Option.isSome_iff_exists.mp hsome
    refine h.move hown nofun nofun fun token' res hq => ?_
    obtain ⟨rfl, rfl⟩ := Request.resolved.inj hq
    refine ⟨fun p new hp => ?_, fun y d id _ hrot => ?_⟩
    · cases (h.gone p _ new hp).symm.trans hx
    · cases (h.retired _ d hrot).2.symm.trans hx
  · exact h.move hown nofun nofun nofun
  -- `follow`
  · next r _ token hr =>
    have hkeep : ∀ token x d id, s.minted token = some x → s.rotated token = some d → s.now < d →
        s.sessions id = some x → s.inWindow token = some (id, d) := fun token x d id hx hr hn hi => by
      simp [Http.inWindow, h.follows token x d id hx hr hn hi, hn]
    refine Inv.move (s := { s with grace := s.inWindow }) { h with
      own := { h.own with graceOf := fun token cur d hg => h.own.graceOf token cur d (grace_of_inWindow hg).1 }
      follows := hkeep } hown nofun nofun fun token' res hq => ?_
    obtain ⟨rfl, rfl⟩ := Request.resolved.inj hq
    refine ⟨hc.follow r _ rfl hr, fun x d id hx hrot hn hi => ?_⟩
    rw [hkeep _ x d id hx hrot hn hi]
    rfl
  -- `lookup`
  · exact h.move hown nofun nofun nofun
  · exact h.move hown nofun nofun nofun
  · exact h.move hown nofun nofun nofun
  -- `writeBack`
  · next r _ id hr _ _ x new hx hnew =>
    obtain ⟨honce, hlast⟩ := hc.once r new id rfl hr
    exact h.rekey hown hx hnew (hc.settled r new id rfl hr) honce hlast
  · exact h.move hown nofun nofun nofun
  · exact h.insertGrace hown ‹_›
  -- `create`
  · next id hid =>
    have hfree : ∀ a, s.minted a ≠ some id := fun a ha => hid (by simp [h.own.named a id ha])
    have hsession := h.own.session
    have hsome := fun p old new hp => (h.own.rekeyed p old new hp).1
    cases h
    constructor
    case own => exact hown
    case inj | retired | gone | evicted | moved | follows | resolved => grind [update_apply]
    all_goals assumption
  -- `evict`
  · next hsome =>
    obtain ⟨x, hx⟩ := Option.isSome_iff_exists.mp hsome
    have hid := h.own.session _ x hx
    have hrot : s.rotated _ = none := Option.eq_none_iff_forall_ne_some.mpr fun d hd => by
      cases (h.retired _ d hd).2.symm.trans hx
    have h' := h
    cases h'
    constructor
    case own => exact hown
    case resolved =>
      intro p token res y d a hp hy hrot hn ha
      rcases of_update_eq hp with ⟨-, hp⟩ | hp
      · cases hp
      rcases of_update_eq ha with ⟨-, ha⟩ | ha
      · cases ha
      · exact h.resolved p token res y d a hp hy hrot hn ha
    all_goals grind [update_apply]
  -- `forget`
  · cases h
    constructor
    case own => exact hown
    case gone | evicted | kept | moved | unresolved | follows | resolved =>
      grind [update_apply, Option.filter_eq_some_iff]
    all_goals assumption
  -- `tick`
  · exact { h with
      own := hown
      follows := fun token x d id hx hr hn => h.follows token x d id hx hr (Nat.lt_of_succ_lt hn)
      resolved := fun r token res x d id hq hx hr hn => h.resolved r token res x d id hq hx hr (Nat.lt_of_succ_lt hn) }

/-- The step has request `r` resolve the token, with the result `res`. -/
def Resolves (grace : Nat) (s : Http) (l : Label) (r token : Nat) (res : Option Nat) : Prop :=
  ∃ s', step grace s l = some s' ∧ s.requests r ≠ .resolved token res ∧ s'.requests r = .resolved token res

end Fluxum.Rotation
