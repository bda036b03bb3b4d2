/-
# Optimistic layers

Optimistic calls over the row cache (`sdks/rust/src/optimistic.rs`): each call
in flight is a layer of upserts and deletes over the authoritative rows, which
goes when the call's own update lands or when its result settles it.

* `layers_resolve`: the layers are those of the calls in flight, if updates can
  be told apart.
* `uncovered_layer_stays`: a layer that nothing takes away.
-/
import Fluxum.Lib.Runs
import Fluxum.Client.RowCache

namespace Fluxum

open Std List

/-! ### Layers -/

inductive OptimisticOp where
  | insert (table : String) (row : Bytes)
  | delete (table : String) (pk : Bytes)
deriving DecidableEq, Repr

def OptimisticOp.table : OptimisticOp → String
  | .insert table _ | .delete table _ => table

/-- The overlay of one call. -/
structure Layer where
  id : Nat
  reducer : String
  ops : List OptimisticOp
  /-- The result is in; the layer is held until the update applies. -/
  confirmed : Bool
deriving DecidableEq, Repr

structure SyncedCache where
  base : RowCache
  layers : List Layer
  nextLayer : Nat

abbrev ByQuery := List (Nat × List WireDiff)

namespace SyncedCache

def new (schemas : List CacheSchema) : SyncedCache := ⟨.new schemas, [], 1⟩

/-- One operation over the rows of a table. A replaced row stays in its place. -/
def overlay (base : RowCache) (table : String) (view : List (Bytes × Bytes)) (op : OptimisticOp) : List (Bytes × Bytes) :=
  if op.table ≠ table then view
  else
    match op with
    | .insert _ row =>
      match base.projectPk table row with
      | none => view
      | some pk =>
        if view.any (·.1 = pk) then view.map fun e => if e.1 = pk then (pk, row) else e else view ++ [(pk, row)]
    | .delete _ pk => view.filter (·.1 ≠ pk)

def rows (c : SyncedCache) (table : String) : List Bytes :=
  if c.layers = [] then c.base.rows table
  else ((c.layers.flatMap (·.ops)).foldl (overlay c.base table) (c.base.pkRows table)).map (·.2)

/-- Whether the base already reflects every operation of a layer. -/
def fullyShadowed (c : SyncedCache) (layer : Layer) : Bool :=
  layer.ops.all fun
    | .insert table row =>
      match c.base.projectPk table row with
      | some pk => (c.base.pkRows table).any (·.1 = pk)
      | none => true
    | .delete table pk => !(c.base.pkRows table).any (·.1 = pk)

/-- The layers without one of them and without the older confirmed ones. -/
def dropFrom (layerId : Nat) : List Layer → List Layer
  | [] => []
  | layer :: layers =>
    if layer.id = layerId then layers
    else if layer.confirmed then dropFrom layerId layers
    else layer :: dropFrom layerId layers

def dropLayerAndOlder (c : SyncedCache) (layerId : Nat) : SyncedCache :=
  if c.layers.any (·.id = layerId) then { c with layers := dropFrom layerId c.layers } else c

/-- Attribute an own commit to the oldest layer of its reducer. -/
def noteOwnTx (c : SyncedCache) (reducer : String) : SyncedCache :=
  match c.layers.find? (·.reducer = reducer) with
  | none => c
  | some layer => c.dropLayerAndOlder layer.id

def applyTx (c : SyncedCache) (byQuery : ByQuery) (ownReducer : Option String) : SyncedCache :=
  let c' := { c with base := byQuery.foldl (fun base q => (base.applyQueryDiff q.1 q.2).1) c.base }
  match ownReducer with
  | none => c'
  | some reducer => if c.layers = [] then c' else c'.noteOwnTx reducer

def applyOptimistic (c : SyncedCache) (reducer : String) (ops : List OptimisticOp) : SyncedCache :=
  { c with layers := c.layers ++ [⟨c.nextLayer, reducer, ops, false⟩], nextLayer := c.nextLayer + 1 }

def rollback (c : SyncedCache) (layerId : Nat) : SyncedCache :=
  { c with layers := c.layers.eraseP (·.id = layerId) }

/-- The call succeeded: the layer goes now if its update has applied or will never come. -/
def confirm (c : SyncedCache) (layerId : Nat) (noSubscriptions : Bool) : SyncedCache :=
  match c.layers.find? (·.id = layerId) with
  | none => c
  | some layer =>
    let c' := { c with layers := c.layers.map fun l => if l.id = layerId then { l with confirmed := true } else l }
    if noSubscriptions || c.fullyShadowed layer then c'.dropLayerAndOlder layerId else c'

end SyncedCache

/-! ### A client and its calls -/

/-- An optimistic call, with what the server has made of it. -/
structure OptCall where
  layer : Nat
  reducer : String
  /-- Whether the call committed, once the server has run it. -/
  outcome : Option Bool
  /-- The update that the commit owes to the client's subscriptions, if it touches them. -/
  update : Option ByQuery
  applied : Bool
  acked : Bool

/-- The update of the call is still on its way. -/
def OptCall.awaited (c : OptCall) : Bool := c.update.isSome && !c.applied

def OptCall.unresolved (c : OptCall) : Bool :=
  match c.outcome with
  | none => true
  | some false => !c.acked
  | some true => if c.update.isSome then !c.applied else !c.acked

/-- One connection. -/
structure OptClient where
  cache : SyncedCache
  calls : List OptCall
  noSubscriptions : Bool

inductive OptStep where
  | submit (reducer : String) (ops : List OptimisticOp)
  /-- The server runs the oldest call that it has not run. -/
  | run (ok : Bool) (update : Option ByQuery)
  /-- The oldest update that is owed arrives. -/
  | deliver
  /-- The result of a call arrives. -/
  | ack (layer : Nat)
  /-- An update of another client's commit, or the initial data of a query. -/
  | foreign (byQuery : ByQuery)

namespace OptClient

def new (schemas : List CacheSchema) (noSubscriptions : Bool) : OptClient := ⟨.new schemas, [], noSubscriptions⟩

def setCall (s : OptClient) (layer : Nat) (f : OptCall → OptCall) : List OptCall :=
  s.calls.map fun c => if c.layer = layer then f c else c

def step (s : OptClient) : OptStep → Option OptClient
  | .submit reducer ops =>
    some { s with
      cache := s.cache.applyOptimistic reducer ops
      calls := s.calls ++ [⟨s.cache.nextLayer, reducer, none, none, false, false⟩] }
  | .run ok update =>
    match s.calls.find? (·.outcome = none) with
    | none => none
    | some call =>
      if update.isSome ∧ (s.noSubscriptions ∨ ok = false) then none
      else some { s with calls := s.setCall call.layer fun c => { c with outcome := some ok, update } }
  | .deliver =>
    match s.calls.find? (·.awaited) with
    | none => none
    | some call => some { s with
        cache := s.cache.applyTx (call.update.getD []) (some call.reducer)
        calls := s.setCall call.layer fun c => { c with applied := true } }
  | .ack layer =>
    match s.calls.find? fun c => c.layer = layer && !c.acked with
    | none => none
    | some call =>
      match call.outcome with
      | none => none
      | some ok => some { s with
          cache := if ok then s.cache.confirm layer s.noSubscriptions else s.cache.rollback layer
          calls := s.setCall layer fun c => { c with acked := true } }
  | .foreign byQuery => some { s with cache := s.cache.applyTx byQuery none }

/-- No layer of a committed call is gone while its update is on its way, and once every call is
acknowledged and every update applied, no layer is left and the rows are the authoritative ones. -/
structure Resolves (s : OptClient) : Prop where
  held : ∀ c ∈ s.calls, c.outcome = some true → c.awaited = true → ∃ l ∈ s.cache.layers, l.id = c.layer
  settled : (∀ c ∈ s.calls, c.outcome ≠ none ∧ c.acked = true ∧ c.awaited = false) →
    s.cache.layers = [] ∧ ∀ table, s.cache.rows table = s.cache.base.rows table

/-- Whether the base already reflects the layer of a call. -/
def shadowed (s : OptClient) (layer : Nat) : Bool :=
  (s.cache.layers.find? (·.id = layer)).any s.cache.fullyShadowed

/-- An update finds no older unsettled call of its reducer. A success that comes before its update finds
the layer not shadowed; one that no update follows finds the client without subscriptions or the layer
shadowed, and no older confirmed call that still waits for its update. -/
def attributable (s : OptClient) : OptStep → Bool
  | .deliver => (s.calls.find? (·.awaited)).all fun call =>
      s.calls.all fun c => !(c.layer < call.layer && c.unresolved && c.reducer = call.reducer)
  | .ack layer => (s.calls.find? fun c => c.layer = layer && !c.acked).all fun call =>
      call.outcome ≠ some true ||
        if call.update.isSome then call.applied || !s.shadowed layer
        else (s.noSubscriptions || s.shadowed layer) &&
          s.calls.all fun c => !(c.layer < layer && c.awaited && c.acked)
  | _ => true

/-! ### Layers and unsettled calls -/

/-- The layers are those of the unsettled calls, in the order of submission. -/
structure Inv (s : OptClient) : Prop where
  layers : s.cache.layers.map (fun l => (l.id, l.reducer, l.confirmed)) =
    (s.calls.filter (·.unresolved)).map fun c => (c.layer, c.reducer, c.acked)
  ids : s.calls.Pairwise (·.layer < ·.layer)
  next : ∀ c ∈ s.calls, c.layer < s.cache.nextLayer
  open' : ∀ c ∈ s.calls, c.outcome = none → c.update = none ∧ c.applied = false ∧ c.acked = false
  failed : ∀ c ∈ s.calls, c.outcome = some false → c.update = none
  owed : ∀ c ∈ s.calls, c.update.isSome = true → s.noSubscriptions = false

variable {s s' : OptClient}

theorem inv_new (schemas : List CacheSchema) (noSubscriptions : Bool) : Inv (new schemas noSubscriptions) where
  layers := by simp [new, SyncedCache.new]
  ids := by simp [new]
  next := by simp [new]
  open' := by simp [new]
  failed := by simp [new]
  owed := by simp [new]

theorem Inv.committed (h : Inv s) {c : OptCall} (hc : c ∈ s.calls) (hu : c.update.isSome = true) : c.outcome = some true := by
  rcases ho : c.outcome with _ | _ | _
  · simp [(h.open' c hc ho).1] at hu
  · simp [h.failed c hc ho] at hu
  · rfl

variable {bs as : List OptCall} {call : OptCall}

theorem map_mark {α : Type} {key : α → Nat} {as bs : List α} {a : α} {k : Nat} (f : α → α) (ha : key a = k)
    (has : ∀ x ∈ as, key x ≠ k) (hbs : ∀ x ∈ bs, key x ≠ k) :
    (as ++ a :: bs).map (fun x => if key x = k then f x else x) = as ++ f a :: bs := by
  have hkeep : ∀ l : List α, (∀ x ∈ l, key x ≠ k) → l.map (fun x => if key x = k then f x else x) = l := by
    intro l hl
    calc l.map (fun x => if key x = k then f x else x) = l.map id :=
          map_congr_left fun x hx => if_neg (hl x hx)
      _ = l := map_id l
  rw [map_append, map_cons, if_pos ha, hkeep as has, hkeep bs hbs]

theorem Inv.split (h : Inv s) (hcalls : s.calls = as ++ call :: bs) :
    (∀ a ∈ as, a.layer < call.layer) ∧ ∀ b ∈ bs, call.layer < b.layer := by
  have hids := h.ids
  rw [hcalls, pairwise_append, pairwise_cons] at hids
  exact ⟨fun a ha => hids.2.2 a ha call (by simp), hids.2.1.1⟩

theorem Inv.setCall_eq (h : Inv s) (hcalls : s.calls = as ++ call :: bs) (f : OptCall → OptCall) :
    s.setCall call.layer f = as ++ f call :: bs := by
  obtain ⟨has, hbs⟩ := h.split hcalls
  unfold setCall
  rw [hcalls, map_mark f rfl (fun c hc => (has c hc).ne) fun c hc => (hbs c hc).ne']

/-- What an unsettled call shows in its layer. -/
abbrev tag (c : OptCall) : Nat × String × Bool := (c.layer, c.reducer, c.acked)

/-- The layers are those of the unsettled ones among the calls. -/
def LayersOf (layers : List Layer) (calls : List OptCall) : Prop :=
  layers.map (fun l => (l.id, l.reducer, l.confirmed)) = (calls.filter (·.unresolved)).map tag

theorem LayersOf.append {older newer : List Layer} (hold : LayersOf older as) (hnew : LayersOf newer bs) :
    LayersOf (older ++ newer) (as ++ bs) := by
  rw [LayersOf, map_append, hold, hnew, ← map_append, ← filter_append]

theorem LayersOf.cons {l : Layer} {newer : List Layer} (hl : (l.id, l.reducer, l.confirmed) = tag call)
    (hun : call.unresolved = true) (hnew : LayersOf newer bs) : LayersOf (l :: newer) (call :: bs) := by
  rw [LayersOf, map_cons, hl, hnew, filter_cons_of_pos hun, map_cons]

theorem layersOf_settled {layers : List Layer} (hun : call.unresolved = false) :
    LayersOf layers (as ++ call :: bs) ↔ LayersOf layers (as ++ bs) := by
  simp [LayersOf, hun]

theorem Inv.replace (h : Inv s) (hcalls : s.calls = as ++ call :: bs) (call' : OptCall)
    (hlayer : call'.layer = call.layer) (hrun : call'.outcome ≠ none)
    (hfailed : call'.outcome = some false → call'.update = none)
    (howed : call'.update.isSome = true → s.noSubscriptions = false) {cache : SyncedCache}
    (hnext : cache.nextLayer = s.cache.nextLayer)
    (hlayers : LayersOf cache.layers (as ++ call' :: bs)) : Inv ⟨cache, as ++ call' :: bs, s.noSubscriptions⟩ := by
  have hold : ∀ c, c ∈ as ∨ c ∈ bs → c ∈ s.calls := by
    rintro c (hc | hc)
    · simp [hcalls, hc]
    · simp [hcalls, hc]
  have hmem : ∀ c ∈ as ++ call' :: bs, c = call' ∨ c ∈ s.calls := by
    intro c hc
    rcases mem_append.mp hc with hc | hc
    · exact .inr (hold c (.inl hc))
    · rcases mem_cons.mp hc with rfl | hc
      · exact .inl rfl
      · exact .inr (hold c (.inr hc))
  refine ⟨hlayers, ?_, fun c hc => ?_, fun c hc ho => ?_, fun c hc ho => ?_, fun c hc hu => ?_⟩
  · have hids := h.ids
    rw [hcalls, pairwise_append, pairwise_cons] at hids
    rw [pairwise_append, pairwise_cons]
    refine ⟨hids.1, ⟨fun b hb => hlayer ▸ hids.2.1.1 b hb, hids.2.1.2⟩, fun a ha b hb => ?_⟩
    rcases mem_cons.mp hb with rfl | hb
    · exact hlayer ▸ hids.2.2 a ha call (by simp)
    · exact hids.2.2 a ha b (by simp [hb])
  · rw [hnext]
    rcases hmem c hc with rfl | hc
    · rw [hlayer]
      exact h.next call (by simp [hcalls])
    · exact h.next c hc
  · rcases hmem c hc with rfl | hc
    · exact absurd ho hrun
    · exact h.open' c hc ho
  · rcases hmem c hc with rfl | hc
    · exact hfailed ho
    · exact h.failed c hc ho
  · rcases hmem c hc with rfl | hc
    · exact howed hu
    · exact h.owed c hc hu

theorem Inv.layers_split (h : Inv s) (hcalls : s.calls = as ++ call :: bs) (hun : call.unresolved = true) :
    ∃ older l newer, s.cache.layers = older ++ l :: newer ∧
      LayersOf older as ∧ (l.id, l.reducer, l.confirmed) = tag call ∧ LayersOf newer bs := by
  have hlayers := h.layers
  rw [hcalls, filter_append, filter_cons_of_pos hun, map_append, map_cons] at hlayers
  obtain ⟨older, rest, heq, holder, hrest⟩ := map_eq_append_iff.mp hlayers
  obtain ⟨l, newer, rfl, hl, hnewer⟩ := map_eq_cons_iff.mp hrest
  exact ⟨older, l, newer, heq, holder, hl, hnewer⟩

theorem LayersOf.exists_call {layers : List Layer} {calls : List OptCall} {l : Layer} (h : LayersOf layers calls) (hl : l ∈ layers) :
    ∃ c ∈ calls, c.unresolved = true ∧ tag c = (l.id, l.reducer, l.confirmed) := by
  have hmem : (l.id, l.reducer, l.confirmed) ∈ (calls.filter (·.unresolved)).map tag := h ▸ mem_map_of_mem hl
  obtain ⟨c, hc, heq⟩ := mem_map.mp hmem
  obtain ⟨hc, hun⟩ := mem_filter.mp hc
  exact ⟨c, hc, hun, heq⟩

theorem dropFrom_append {l : Layer} {older newer : List Layer}
    (h : ∀ o ∈ older, o.id ≠ l.id ∧ o.confirmed = false) :
    SyncedCache.dropFrom l.id (older ++ l :: newer) = older ++ newer := by
  induction older with
  | nil => simp [SyncedCache.dropFrom]
  | cons o older ih =>
    obtain ⟨hne, hconf⟩ := h o (by simp)
    rw [cons_append, SyncedCache.dropFrom, if_neg hne, if_neg (by simp [hconf]),
      ih fun o' ho' => h o' (mem_cons_of_mem o ho'), cons_append]

section

variable (h : Inv s)
include h

theorem Inv.older_id_ne (hcalls : s.calls = as ++ call :: bs) {older : List Layer} (holder : LayersOf older as) :
    ∀ o ∈ older, o.id ≠ call.layer := by
  intro o ho
  obtain ⟨c, hc, -, heq⟩ := holder.exists_call ho
  have hlt := (h.split hcalls).1 c hc
  have hid : c.layer = o.id := congrArg Prod.fst heq
  omega

/-- An unsettled call that has its result waits for its update. -/
theorem Inv.awaited {c : OptCall} (hc : c ∈ s.calls) (hun : c.unresolved = true) (hacked : c.acked = true) :
    c.awaited = true := by
  unfold OptCall.unresolved at hun
  rcases ho : c.outcome with _ | _ | _
  · simp [(h.open' c hc ho).2.2] at hacked
  · simp [ho, hacked] at hun
  rw [ho] at hun
  by_cases hu : c.update.isSome = true
  · simpa [OptCall.awaited, hu] using hun
  · simp [hu, hacked] at hun

theorem Inv.layers_mark (hcalls : s.calls = as ++ call :: bs) (hun : call.unresolved = true)
    (f : Layer → Layer) : ∃ older l newer,
      s.cache.layers.map (fun l => if l.id = call.layer then f l else l) = older ++ f l :: newer ∧
      LayersOf older as ∧ (l.id, l.reducer, l.confirmed) = tag call ∧ LayersOf newer bs := by
  obtain ⟨older, l, newer, heq, hold, hl, hnew⟩ := h.layers_split hcalls hun
  have hid : l.id = call.layer := congrArg Prod.fst hl
  have hne' : ∀ o ∈ newer, o.id ≠ call.layer := by
    intro o ho
    obtain ⟨c, hc, -, htag⟩ := hnew.exists_call ho
    have hlt := (h.split hcalls).2 c hc
    have hoid : c.layer = o.id := congrArg Prod.fst htag
    omega
  refine ⟨older, l, newer, ?_, hold, hl, hnew⟩
  rw [heq, map_mark f hid (h.older_id_ne hcalls hold) hne']

theorem Inv.drop (hcalls : s.calls = as ++ call :: bs) (hun : call.unresolved = true)
    (holder : ∀ a ∈ as, a.awaited = true → a.acked = false) (f : Layer → Layer) (hf : ∀ l, (f l).id = l.id)
    (cache : SyncedCache) (hcache : cache.layers = s.cache.layers.map fun l => if l.id = call.layer then f l else l) :
    LayersOf (cache.dropLayerAndOlder call.layer).layers (as ++ bs) := by
  obtain ⟨older, l, newer, hlayers, hold, hl, hnew⟩ := h.layers_mark hcalls hun f
  rw [← hcache] at hlayers
  have hid : (f l).id = call.layer := (hf l).trans (congrArg Prod.fst hl)
  have hconf : ∀ o ∈ older, o.id ≠ (f l).id ∧ o.confirmed = false := by
    intro o ho
    refine ⟨hid ▸ h.older_id_ne hcalls hold o ho, ?_⟩
    obtain ⟨c, hc, hcun, htag⟩ := hold.exists_call ho
    have hacked : c.acked = o.confirmed := congrArg (·.2.2) htag
    by_contra htrue
    rw [Bool.not_eq_false] at htrue
    have := holder c hc (h.awaited (by simp [hcalls, hc]) hcun (hacked.trans htrue))
    simp [hacked, htrue] at this
  have hany : cache.layers.any (·.id = call.layer) = true := by simp [hlayers, hid]
  rw [SyncedCache.dropLayerAndOlder, if_pos hany]
  rw [hlayers, ← hid, dropFrom_append hconf]
  exact hold.append hnew

theorem Inv.deliver (hattr : s.attributable .deliver = true) (hstep : s.step .deliver = some s') : Inv s' := by
  simp only [step] at hstep
  split at hstep
  · simp at hstep
  rename_i call hfind
  cases hstep
  obtain ⟨hawaited, as, bs, hcalls, has⟩ := find?_eq_some_iff_append.mp hfind
  have hmem : call ∈ s.calls := mem_of_find?_eq_some hfind
  have hu : call.update.isSome = true ∧ call.applied = false := by simpa [OptCall.awaited] using hawaited
  have hcommitted := h.committed hmem hu.1
  have hun : call.unresolved = true := by simp [OptCall.unresolved, hcommitted, hu]
  rw [h.setCall_eq hcalls]
  -- the oldest layer of the reducer is that of the call
  obtain ⟨older, l, newer, heq, hold, hl, hnew⟩ := h.layers_split hcalls hun
  have hreducer : ∀ o ∈ older, o.reducer ≠ call.reducer := by
    intro o ho heq'
    obtain ⟨c, hc, hcun, htag⟩ := hold.exists_call ho
    have hlt := (h.split hcalls).1 c hc
    have hcr : c.reducer = o.reducer := congrArg (·.2.1) htag
    simp only [attributable, hfind, Option.all_some, all_eq_true] at hattr
    have := hattr c (by simp [hcalls, hc])
    simp [hlt, hcun, hcr, heq'] at this
  have hlr : l.reducer = call.reducer := congrArg (·.2.1) hl
  have hid : l.id = call.layer := congrArg Prod.fst hl
  have hnote : s.cache.layers.find? (·.reducer = call.reducer) = some l := by
    rw [heq, find?_append, find?_eq_none.mpr (by simpa using hreducer), Option.none_or,
      find?_cons_of_pos (by simpa using hlr)]
  have hne : s.cache.layers ≠ [] := by simp [heq]
  have hcache : s.cache.applyTx (call.update.getD []) (some call.reducer) =
      SyncedCache.dropLayerAndOlder { s.cache with
        base := (call.update.getD []).foldl (fun base q => (base.applyQueryDiff q.1 q.2).1) s.cache.base } call.layer := by
    simp only [SyncedCache.applyTx, if_neg hne, SyncedCache.noteOwnTx, hnote, hid]
  have hfirst : ∀ a ∈ as, a.awaited = true → a.acked = false := by
    intro a ha haw
    simpa [haw] using has a ha
  have hdropped := h.drop hcalls hun hfirst id (fun _ => rfl) { s.cache with
    base := (call.update.getD []).foldl (fun base q => (base.applyQueryDiff q.1 q.2).1) s.cache.base } (by simp)
  refine h.replace hcalls { call with applied := true } rfl (by simp [hcommitted]) (fun ho => absurd (hcommitted.symm.trans ho) (by simp))
    (fun _ => h.owed call hmem hu.1) ?_ ?_
  · rw [hcache]
    unfold SyncedCache.dropLayerAndOlder
    split <;> rfl
  · rw [hcache]
    exact (layersOf_settled (by simp [OptCall.unresolved, hcommitted, hu])).mpr hdropped

theorem Inv.submit {reducer : String} {ops : List OptimisticOp}
    (hstep : s.step (.submit reducer ops) = some s') : Inv s' := by
  cases hstep
  have hmem : ∀ c ∈ s.calls ++ [⟨s.cache.nextLayer, reducer, none, none, false, false⟩],
      c ∈ s.calls ∨ c = ⟨s.cache.nextLayer, reducer, none, none, false, false⟩ := by
    intro c hc
    simpa using hc
  refine ⟨?_, ?_, fun c hc => ?_, fun c hc ho => ?_, fun c hc ho => ?_, fun c hc hu => ?_⟩
  · simp only [SyncedCache.applyOptimistic, map_append, filter_append, h.layers]
    simp [OptCall.unresolved]
  · rw [pairwise_append]
    refine ⟨h.ids, pairwise_singleton _ _, fun a ha b hb => ?_⟩
    obtain rfl := mem_singleton.mp hb
    exact h.next a ha
  · rcases hmem c hc with hc | rfl
    · exact (h.next c hc).trans (Nat.lt_succ_self _)
    · exact Nat.lt_succ_self _
  · rcases hmem c hc with hc | rfl
    · exact h.open' c hc ho
    · exact ⟨rfl, rfl, rfl⟩
  · rcases hmem c hc with hc | rfl
    · exact h.failed c hc ho
    · rfl
  · rcases hmem c hc with hc | rfl
    · exact h.owed c hc hu
    · simp at hu

theorem Inv.run {ok : Bool} {update : Option ByQuery} (hstep : s.step (.run ok update) = some s') : Inv s' := by
  simp only [step] at hstep
  split at hstep
  · simp at hstep
  rename_i call hfind
  split at hstep
  · simp at hstep
  rename_i hguard
  cases hstep
  obtain ⟨hnone, as, bs, hcalls, -⟩ := find?_eq_some_iff_append.mp hfind
  have hmem : call ∈ s.calls := mem_of_find?_eq_some hfind
  have hnone : call.outcome = none := by simpa using hnone
  obtain ⟨hupdate, happlied, hacked⟩ := h.open' call hmem hnone
  rw [h.setCall_eq hcalls]
  refine h.replace hcalls { call with outcome := some ok, update := update } rfl (by simp) (fun ho => ?_) (fun hu => ?_) rfl ?_
  · by_contra hne
    have hok : ok = false := by simpa using ho
    exact hguard ⟨Option.isSome_iff_ne_none.mpr hne, .inr hok⟩
  · by_contra hno
    exact hguard ⟨hu, .inl (by simpa using hno)⟩
  · have hopen : call.unresolved = true := by simp [OptCall.unresolved, hnone]
    have hrun : OptCall.unresolved { call with outcome := some ok, update := update } = true := by
      cases ok with
      | false => simp [OptCall.unresolved, hacked]
      | true => simp [OptCall.unresolved, hacked, happlied]
    obtain ⟨older, l, newer, heq, hold, hl, hnew⟩ := h.layers_split hcalls hopen
    rw [heq]
    exact hold.append (.cons hl hrun hnew)

theorem Inv.foreign {byQuery : ByQuery} (hstep : s.step (.foreign byQuery) = some s') : Inv s' := by
  cases hstep
  exact ⟨h.layers, h.ids, h.next, h.open', h.failed, h.owed⟩

end

theorem nextLayer_drop (c : SyncedCache) (layer : Nat) : (c.dropLayerAndOlder layer).nextLayer = c.nextLayer := by
  unfold SyncedCache.dropLayerAndOlder
  split <;> rfl

theorem Inv.find_layer_none (h : Inv s) (hmem : call ∈ s.calls) (hun : call.unresolved = false) :
    s.cache.layers.find? (·.id = call.layer) = none := by
  rw [find?_eq_none]
  intro l hl hid
  obtain ⟨c, hc, hcun, htag⟩ := LayersOf.exists_call h.layers hl
  have hlayer : c.layer = call.layer := (congrArg Prod.fst htag).trans (of_decide_eq_true hid)
  obtain ⟨as, bs, hcalls⟩ := append_of_mem hmem
  obtain ⟨has, hbs⟩ := h.split hcalls
  rw [hcalls] at hc
  rcases mem_append.mp hc with hc | hc
  · exact absurd (has c hc) (by omega)
  · rcases mem_cons.mp hc with rfl | hc
    · simp [hun] at hcun
    · exact absurd (hbs c hc) (by omega)

theorem Inv.find_layer (h : Inv s) (hmem : call ∈ s.calls) (hun : call.unresolved = true) :
    ∃ l, s.cache.layers.find? (·.id = call.layer) = some l ∧ l.reducer = call.reducer := by
  obtain ⟨as, bs, hcalls⟩ := append_of_mem hmem
  obtain ⟨older, l, newer, heq, hold, hl, -⟩ := h.layers_split hcalls hun
  have hid : l.id = call.layer := congrArg Prod.fst hl
  refine ⟨l, ?_, congrArg (·.2.1) hl⟩
  have hnone : older.find? (·.id = call.layer) = none := by
    simpa using h.older_id_ne hcalls hold
  rw [heq, find?_append, hnone, Option.none_or, find?_cons_of_pos (by simpa using hid)]

theorem Inv.ack (h : Inv s) {layer : Nat} (hattr : s.attributable (.ack layer) = true)
    (hstep : s.step (.ack layer) = some s') : Inv s' := by
  simp only [step] at hstep
  split at hstep
  · simp at hstep
  rename_i call hfind
  split at hstep
  · simp at hstep
  rename_i ok hok
  cases hstep
  obtain ⟨hcond, as, bs, hcalls, -⟩ := find?_eq_some_iff_append.mp hfind
  have hmem : call ∈ s.calls := mem_of_find?_eq_some hfind
  obtain ⟨rfl, hacked⟩ : call.layer = layer ∧ call.acked = false := by simpa using hcond
  simp only [attributable, hfind, Option.all_some] at hattr
  rw [h.setCall_eq hcalls]
  have hset : ∀ {cache : SyncedCache}, cache.nextLayer = s.cache.nextLayer →
      LayersOf cache.layers (as ++ { call with acked := true } :: bs) →
      Inv ⟨cache, as ++ { call with acked := true } :: bs, s.noSubscriptions⟩ := by
    intro cache hnext hlayers
    exact h.replace hcalls { call with acked := true } rfl (by simp [hok]) (fun ho => h.failed call hmem ho)
      (fun hu => h.owed call hmem hu) hnext hlayers
  cases ok with
  | false =>
    have hun : call.unresolved = true := by simp [OptCall.unresolved, hok, hacked]
    obtain ⟨older, l, newer, heq, hold, hl, hnew⟩ := h.layers_split hcalls hun
    have hid : l.id = call.layer := congrArg Prod.fst hl
    have hrollback : (s.cache.rollback call.layer).layers = older ++ newer := by
      simp only [SyncedCache.rollback, heq]
      rw [eraseP_append_right _ (by simpa using h.older_id_ne hcalls hold), eraseP_cons_of_pos (by simpa using hid)]
    refine hset rfl ((layersOf_settled (by simp [OptCall.unresolved, hok])).mpr ?_)
    rw [if_neg (by simp), hrollback]
    exact hold.append hnew
  | true =>
    rw [if_pos rfl]
    by_cases hu : call.update.isSome = true
    · by_cases happ : call.applied = true
      · -- the update has settled the call: its layer is gone
        have hun : call.unresolved = false := by simp [OptCall.unresolved, hok, hu, happ]
        have hconfirm : s.cache.confirm call.layer s.noSubscriptions = s.cache := by
          rw [SyncedCache.confirm, h.find_layer_none hmem hun]
        rw [hconfirm]
        have hlayers : LayersOf s.cache.layers s.calls := h.layers
        rw [hcalls, layersOf_settled hun] at hlayers
        exact hset rfl ((layersOf_settled (by simp [OptCall.unresolved, hok, hu, happ])).mpr hlayers)
      · -- the layer is held until the update comes
        have hun : call.unresolved = true := by simp [OptCall.unresolved, hok, hu, happ]
        obtain ⟨l, hl, -⟩ := h.find_layer hmem hun
        have hshadow : s.cache.fullyShadowed l = false := by
          simpa [hok, hu, happ, shadowed, hl] using hattr
        have hconfirm : s.cache.confirm call.layer s.noSubscriptions = { s.cache with
            layers := s.cache.layers.map fun l => if l.id = call.layer then { l with confirmed := true } else l } := by
          simp only [SyncedCache.confirm, hl, hshadow, h.owed call hmem hu, Bool.or_self, if_false, Bool.false_eq_true]
        rw [hconfirm]
        obtain ⟨older, l, newer, hlayers, hold, hl, hnew⟩ :=
          h.layers_mark hcalls hun fun l => { l with confirmed := true }
        have hid : l.id = call.layer := congrArg Prod.fst hl
        have hlr : l.reducer = call.reducer := congrArg (·.2.1) hl
        refine hset rfl (hlayers ▸ hold.append (.cons ?_ (by simp [OptCall.unresolved, hok, hu, happ]) hnew))
        simp only [tag, hid, hlr]
    · -- no update will come
      have hun : call.unresolved = true := by simp [OptCall.unresolved, hok, hu, hacked]
      obtain ⟨l, hl, -⟩ := h.find_layer hmem hun
      have hu' : call.update.isSome = false := by simpa using hu
      have hattr : (s.noSubscriptions || s.cache.fullyShadowed l) = true ∧
          ∀ c ∈ s.calls, (call.layer ≤ c.layer ∨ c.awaited = false) ∨ c.acked = false := by
        simpa [hok, hu', shadowed, hl] using hattr
      have hconfirm : s.cache.confirm call.layer s.noSubscriptions = SyncedCache.dropLayerAndOlder { s.cache with
          layers := s.cache.layers.map fun l => if l.id = call.layer then { l with confirmed := true } else l } call.layer := by
        simp only [SyncedCache.confirm, hl, hattr.1, if_true]
      have holder : ∀ a ∈ as, a.awaited = true → a.acked = false := by
        intro a ha hawaited
        have hlt := (h.split hcalls).1 a ha
        rcases hattr.2 a (by simp [hcalls, ha]) with (hle | hna) | hacked
        · omega
        · simp [hna] at hawaited
        · exact hacked
      rw [hconfirm]
      refine hset (nextLayer_drop _ _) ((layersOf_settled (by simp [OptCall.unresolved, hok, hu'])).mpr ?_)
      exact h.drop hcalls hun holder (fun l => { l with confirmed := true }) (fun _ => rfl) _ rfl

theorem Inv.step {l : OptStep} (h : Inv s) (hattr : s.attributable l = true) (hstep : s.step l = some s') : Inv s' := by
  cases l with
  | submit reducer ops => exact h.submit hstep
  | run ok update => exact h.run hstep
  | deliver => exact h.deliver hattr hstep
  | ack layer => exact h.ack hattr hstep
  | foreign byQuery => exact h.foreign hstep

theorem Inv.resolves (h : Inv s) : s.Resolves := by
  refine ⟨fun c hc ho hawaited => ?_, fun hall => ?_⟩
  · have hun : c.unresolved = true := by
      have hu : c.update.isSome = true ∧ c.applied = false := by simpa [OptCall.awaited] using hawaited
      simp [OptCall.unresolved, ho, hu]
    obtain ⟨l, hl, -⟩ := h.find_layer hc hun
    exact ⟨l, mem_of_find?_eq_some hl, by simpa using find?_some hl⟩
  · have hnone : s.calls.filter (·.unresolved) = [] := by
      rw [filter_eq_nil_iff]
      intro c hc hun
      obtain ⟨ho, hacked, hawaited⟩ := hall c hc
      simp [h.awaited hc hun hacked] at hawaited
    have hlayers := h.layers
    rw [hnone, map_nil, map_eq_nil_iff] at hlayers
    exact ⟨hlayers, fun table => by rw [SyncedCache.rows, if_pos hlayers]⟩

end OptClient

/-- **Optimistic layers resolve.** If every update finds no older unsettled call of its reducer, every
success before its update a layer that the base does not shadow, and every success without an update a
layer that goes at once and alone, then no layer of a committed call goes before its update, and none
is left when all results and updates are in. -/
theorem layers_resolve {schemas : List CacheSchema} {noSubscriptions : Bool} {ls : List OptStep} {s : OptClient}
    (hmeets : Runs.Meets OptClient.step (fun s l => s.attributable l = true) (.new schemas noSubscriptions) ls)
    (hrun : Runs.run OptClient.step (.new schemas noSubscriptions) ls = some s) : s.Resolves :=
  (Runs.run_invariant_of_meets (fun _ _ _ h hattr hstep => OptClient.Inv.step h hattr hstep)
    (OptClient.inv_new schemas noSubscriptions) hmeets hrun).resolves

/-- Rows of two bytes: the primary key and a payload. -/
def taskSchema : CacheSchema := ⟨"Task", (·.take 1), id⟩

/-- Two tasks are added; the first update overtakes its result, the second result its update. -/
def addTasks : List OptStep :=
  [.submit "add" [.insert "Task" [1, 0]], .submit "add" [.insert "Task" [2, 0]],
    .run true (some [(7, [⟨"Task", [[1, 5]], []⟩])]), .run true (some [(7, [⟨"Task", [[2, 5]], []⟩])]), .ack 2, .deliver,
    .ack 1, .deliver]

theorem layers_resolve_addTasks : ∃ s, Runs.run OptClient.step (.new [taskSchema] false) addTasks = some s ∧
    s.cache.rows "Task" = [[1, 5], [2, 5]] ∧ s.Resolves := by
  obtain ⟨s, hrun, hrows⟩ : ∃ s ∈ Runs.run OptClient.step (.new [taskSchema] false) addTasks,
      s.cache.rows "Task" = [[1, 5], [2, 5]] := by
    decide +kernel
  exact ⟨s, hrun, hrows, layers_resolve (by decide +kernel) hrun⟩

/-- A call commits outside the client's subscriptions: its layer stays for good. -/
theorem uncovered_layer_stays : ∃ s, Runs.run OptClient.step (.new [taskSchema] false)
      [.submit "add" [.insert "Task" [1, 0]], .run true none, .ack 1] = some s ∧ ¬ s.Resolves := by
  obtain ⟨s, hrun, hall, hlen⟩ : ∃ s ∈ Runs.run OptClient.step (.new [taskSchema] false)
      [.submit "add" [.insert "Task" [1, 0]], .run true none, .ack 1],
      (∀ c ∈ s.calls, c.outcome.isSome && c.acked && !c.awaited) ∧ s.cache.layers.length = 1 := by
    decide +kernel
  refine ⟨s, hrun, fun hres => ?_⟩
  have hsettled := hres.settled fun c hc => by
    simpa [and_assoc, Option.isSome_iff_ne_none] using hall c hc
  simp [hsettled.1] at hlen

end Fluxum
