/-
# The membership index

`member_of` visibility (`subscription/manager.rs`): each rule has the set of
pairs of a member and an encoded key that its membership table holds. Startup
rebuilds the sets from the tables; `on_commit` takes the pairs of the deleted
rows out and then puts those of the inserted rows in, after the deltas of the
commit are evaluated. If that evaluation fails, the sets stay as they are.

* `membership_equals_table`: the sets are those of the tables as long as no
  pair is lost, which a set forgets how many rows have.
* `second_membership_row_lost`: one of two rows with a pair goes, and the
  member no longer sees the rows of the group.
-/
import Fluxum.Query.Read
import Fluxum.View.Views

namespace Fluxum

open Std List

/-! ### Rules -/

/-- The ordinal of the first such column, as a `u16`. -/
def columnOrdinal (table : TableSchema) (p : ColumnSchema → Bool) : Option Nat :=
  (table.columns.findIdx? p).map (min · 65535)

/-- The resolved `member_of` rule of a table, if it has one. -/
def membershipSpec (schema : Schema) (table : TableDecl) : Option MembershipSpec :=
  match table.visibility with
  | .memberOf member key => do
    let memberTable ← schema.find? (·.name = member)
    let keyInGuarded ← columnOrdinal table.toTableSchema (·.name = key)
    let keyInMember ← columnOrdinal memberTable.toTableSchema (·.name = key)
    let identityInMember ← columnOrdinal memberTable.toTableSchema (·.ty matches .scalar .identity)
    return ⟨table.id, memberTable.id, keyInGuarded, keyInMember, identityInMember⟩
  | _ => none

def membershipSpecs (schema : Schema) : List MembershipSpec := schema.filterMap (membershipSpec schema)

/-- The pair of a row of the membership table. -/
def membershipEntry (spec : MembershipSpec) (row : Row) : Option (Identity × Bytes) :=
  match row[spec.identityInMember]? with
  | some (.scalar (.identity id)) => row[spec.keyInMember]?.map fun key => (id, encodeValue key)
  | _ => none

/-- The pairs of some rows. -/
def entries (spec : MembershipSpec) (rows : List Row) : List (Identity × Bytes) := rows.filterMap (membershipEntry spec)

/-! ### The index -/

/-- The set that startup builds for a rule. -/
def rebuildMembers (base : Snapshot) (spec : MembershipSpec) : MemberSet :=
  (entries spec (base.scan spec.memberTable)).foldl (fun set e => set.insert e) []

/-- The membership part of `init_views`. -/
def initMembers (schema : Schema) (base : Snapshot) : Membership :=
  (membershipSpecs schema).map fun spec => (spec, rebuildMembers base spec)

/-- The deletes of the membership table, then its inserts. -/
def maintain (diff : TxDiff) (m : MembershipSpec × MemberSet) : MembershipSpec × MemberSet :=
  match diff.tables.find? (·.tableId = m.1.memberTable) with
  | none => m
  | some d =>
    let set := (entries m.1 (d.deletes.map (·.2))).foldl (fun set e => set.filter (· ≠ e)) m.2
    (m.1, (entries m.1 d.inserts).foldl (fun set e => set.insert e) set)

section Index

variable {ε δ : Type}

/-- `on_commit`, given the deltas of the queries and the views: an error ends it before the maintenance. -/
def onCommit (members : Membership) (evaluated : Except ε δ) (diff : TxDiff) : Except ε δ × Membership :=
  match evaluated with
  | .error e => (.error e, members)
  | .ok deltas => (.ok deltas, members.map (maintain diff))

/-- The tables and the index over them. -/
structure MemberSys where
  base : Snapshot
  members : Membership

/-- A commit, with what its evaluation gives. -/
def MemberSys.step (cat : Catalog) (s : MemberSys) (c : TxDiff × Except ε δ) : Option MemberSys :=
  some ⟨s.base.commit cat c.1, (onCommit s.members c.2 c.1).2⟩

/-- The index has the rules, each with the set that startup would build now. -/
structure Rebuilt (specs : List MembershipSpec) (s : MemberSys) : Prop where
  specs : s.members.map (·.1) = specs
  set : ∀ m ∈ s.members, ∀ e, e ∈ m.2 ↔ e ∈ rebuildMembers s.base m.1

/-- A pair that the commit deletes goes with all its rows, or comes back with an inserted one. -/
def UnsharedFor (base : Snapshot) (diff : TxDiff) (spec : MembershipSpec) : Prop :=
  ∀ d ∈ diff.tables.find? (·.tableId = spec.memberTable), ∀ e ∈ entries spec (d.deletes.map (·.2)),
    e ∈ entries spec d.inserts ∨
      (entries spec (base.scan spec.memberTable)).count e ≤ (entries spec (d.deletes.map (·.2))).count e

/-- The evaluation succeeds, and no rule loses a pair that a row still has. -/
def Unshared (s : MemberSys) (c : TxDiff × Except ε δ) : Prop :=
  (∃ deltas, c.2 = .ok deltas) ∧ ∀ m ∈ s.members, UnsharedFor s.base c.1 m.1

/-- A membership row of the viewer for the group of a row. -/
def Grants (spec : MembershipSpec) (viewer : Identity) (row member : Row) : Prop :=
  member[spec.identityInMember]? = some (.scalar (.identity viewer)) ∧
    ∃ v w, row[spec.keyInGuarded]? = some v ∧ member[spec.keyInMember]? = some w ∧ encodeValue v = encodeValue w

/-! ### One commit -/

variable {cat : Catalog} {base : Snapshot} {diff : TxDiff} {spec : MembershipSpec} {e : Identity × Bytes}

theorem mem_foldl_insert {es : List (Identity × Bytes)} {set : MemberSet} :
    e ∈ es.foldl (fun set e => set.insert e) set ↔ e ∈ es ∨ e ∈ set := by
  induction es generalizing set with
  | nil => simp
  | cons e' es ih => rw [foldl_cons, ih, mem_insert_iff, mem_cons, ← or_assoc, or_comm (b := e = e')]

theorem mem_foldl_remove {es : List (Identity × Bytes)} {set : MemberSet} :
    e ∈ es.foldl (fun set e => set.filter (· ≠ e)) set ↔ e ∉ es ∧ e ∈ set := by
  induction es generalizing set with
  | nil => simp
  | cons e' es ih =>
    rw [foldl_cons, ih, mem_filter, mem_cons, not_or]
    simp only [decide_eq_true_eq]
    tauto

theorem mem_rebuildMembers : e ∈ rebuildMembers base spec ↔ e ∈ entries spec (base.scan spec.memberTable) := by
  simp [rebuildMembers, mem_foldl_insert]

theorem perm_entries {rows xs ys : List Row} (h : rows.Perm (xs ++ ys)) :
    (entries spec rows).Perm (entries spec xs ++ entries spec ys) := by
  unfold entries
  rw [← filterMap_append]
  exact h.filterMap _

/-- **One rule.** Its set stays the rebuilt one. -/
theorem mem_maintain {m : MembershipSpec × MemberSet} (hexact : diff.Exact cat base)
    (h : ∀ e, e ∈ m.2 ↔ e ∈ rebuildMembers base m.1) (hun : UnsharedFor base diff m.1) :
    e ∈ (maintain diff m).2 ↔ e ∈ rebuildMembers (base.commit cat diff) m.1 := by
  unfold maintain
  rcases hexact.scan_commit m.1.memberTable with ⟨hfind, hscan⟩ | ⟨d, kept, hfind, hold, hnew⟩
  · rw [hfind, h, mem_rebuildMembers, mem_rebuildMembers, hscan]
  have hun := hun d hfind e
  rw [(perm_entries hold).count_eq, count_append] at hun
  simp only [hfind, mem_foldl_insert, mem_foldl_remove, h, mem_rebuildMembers, (perm_entries hold).mem_iff,
    (perm_entries hnew).mem_iff, mem_append]
  -- a pair of a deleted row that a kept one has too comes back with an inserted one
  by_cases hdel : e ∈ entries m.1 (d.deletes.map (·.2))
  · by_cases hkept : e ∈ entries m.1 kept
    · have hpos := count_pos_iff.mpr hkept
      have hins := (hun hdel).resolve_right (by omega)
      simp [hins]
    · simp [hdel, hkept]
  · simp [hdel]

theorem fst_maintain (m : MembershipSpec × MemberSet) : (maintain diff m).1 = m.1 := by
  unfold maintain
  split <;> rfl

theorem rebuilt_init (schema : Schema) (base : Snapshot) :
    Rebuilt (membershipSpecs schema) ⟨base, initMembers schema base⟩ where
  specs := by simp [initMembers, Function.comp_def]
  set m hm e := by
    obtain ⟨spec, -, rfl⟩ := mem_map.mp hm
    exact Iff.rfl

theorem Rebuilt.step {specs : List MembershipSpec} {s s' : MemberSys} {c : TxDiff × Except ε δ} (h : Rebuilt specs s)
    (hexact : c.1.Exact cat s.base) (hun : Unshared s c) (hstep : s.step cat c = some s') : Rebuilt specs s' := by
  obtain ⟨⟨deltas, hok⟩, hun⟩ := hun
  simp only [MemberSys.step, onCommit, hok, Option.some.injEq] at hstep
  subst hstep
  refine ⟨?_, fun m' hm' => ?_⟩
  · rw [map_map, ← h.specs]
    exact map_congr_left fun m _ => fst_maintain m
  · obtain ⟨m, hm, rfl⟩ := mem_map.mp hm'
    rw [fst_maintain]
    exact fun e => mem_maintain hexact (h.set m hm) (hun m hm)

theorem Rebuilt.memberSees_iff {specs : List MembershipSpec} {s : MemberSys} {m : MembershipSpec × MemberSet} {table : Nat}
    {viewer : Identity} {row : Row} (h : Rebuilt specs s) (hm : s.members.find? (·.1.guarded = table) = some m) :
    memberSees s.members table viewer row = true ↔ ∃ member ∈ s.base.scan m.1.memberTable, Grants m.1 viewer row member := by
  have hset := h.set m (mem_of_find?_eq_some hm)
  simp only [memberSees, hm, Option.any_eq_true, decide_eq_true_eq, hset, mem_rebuildMembers, entries, mem_filterMap]
  constructor
  · rintro ⟨v, hv, member, hmember, hentry⟩
    unfold membershipEntry at hentry
    split at hentry
    · rename_i id hid
      obtain ⟨w, hw, heq⟩ := Option.map_eq_some_iff.mp hentry
      obtain ⟨rfl, hkey⟩ := Prod.mk.inj heq
      exact ⟨member, hmember, hid, v, w, hv, hw, hkey.symm⟩
    · cases hentry
  · rintro ⟨member, hmember, hid, v, w, hv, hw, heq⟩
    exact ⟨v, hv, member, hmember, by simp [membershipEntry, hid, hw, heq]⟩

/-- **The membership index equals its table.** After commits that take out no shared pair, the set of each
rule is the one that startup would build from the current tables, and a row of a guarded table is
granted exactly if the viewer has a membership row for its key. -/
theorem membership_equals_table {schema : Schema} {commits : List (TxDiff × Except ε δ)} {s : MemberSys}
    (hexact : Runs.Meets (MemberSys.step cat) (fun s c => c.1.Exact cat s.base) ⟨base, initMembers schema base⟩ commits)
    (hun : Runs.Meets (MemberSys.step cat) Unshared ⟨base, initMembers schema base⟩ commits)
    (hrun : Runs.run (MemberSys.step cat) ⟨base, initMembers schema base⟩ commits = some s) :
    Rebuilt (membershipSpecs schema) s ∧ ∀ (plan : CompiledPlan) viewer row m,
      s.members.find? (·.1.guarded = plan.tableId) = some m → (rowVisible s.members plan (some viewer) row = true ↔
        ownerSees plan.rls viewer row = true ∧ ∃ member ∈ s.base.scan m.1.memberTable, Grants m.1 viewer row member) := by
  have h : Rebuilt (membershipSpecs schema) s := Runs.run_invariant_of_meets
    (fun _ _ _ hI hC hstep => hI.step hC.1 hC.2 hstep) (rebuilt_init schema base) (hexact.and hun) hrun
  refine ⟨h, fun plan viewer row m hm => ?_⟩
  rw [rowVisible, Option.all_some, Bool.and_eq_true, h.memberSees_iff hm]

end Index

/-! ### Teams -/

/-- Members of teams, seen by the members of their team. -/
def memberDecl : TableDecl :=
  { priceSchema with
    name := "Member"
    columns := [⟨"id", .scalar .u64⟩, ⟨"who", .scalar .identity⟩, ⟨"team", .scalar .u64⟩]
    primaryKey_lt := fun _ ho => (List.mem_singleton.mp ho).symm ▸ (Nat.succ_pos 2 : 0 < 3)
    autoInc_primaryKey := fun _ ho => absurd ho (Option.not_mem_none _)
    unique_lt := fun _ hcols => absurd hcols List.not_mem_nil
    indexes_lt := fun _ hcols => absurd hcols List.not_mem_nil
    id := 1
    visibility := .memberOf "Member" "team"
    fulltext := []
    spatialColumns := []
    policies := [] }

def memberCatalog : Catalog :=
  { priceCatalog with
    tables := ExtTreeMap.ofList [(1, memberDecl.toTableSchema)]
    fks_valid := fun _ hfk => absurd hfk List.not_mem_nil
    sealed_primaryKey := fun _ _ _ _ _ => List.not_mem_nil }

def alice : Identity := Vector.replicate 32 1

def member (id : BitVec 64) (team : BitVec 64) : Row := [.scalar (.u64 id), .scalar (.identity alice), .scalar (.u64 team)]

def keyedMember (row : Row) : Bytes × Row := (pkOf memberDecl.toTableSchema row, row)

/-- A membership table with these rows, and the index of its rule. -/
def teams (rows : List Row) : Snapshot := ExtTreeMap.ofList [(1, ExtTreeMap.ofList (rows.map keyedMember))]

def startTeams (rows : List Row) : MemberSys := ⟨teams rows, initMembers [memberDecl] (teams rows)⟩

/-- The commit that deletes the first membership of Alice. -/
def leave : TxDiff × Except Unit Unit := (⟨1, [⟨1, [], [keyedMember (member 1 7)]⟩], []⟩, .ok ())

theorem exact_leave (team : BitVec 64) : leave.1.Exact memberCatalog (teams [member 1 7, member 2 team]) where
  nodup := by simp [leave]
  table d hd := by
    obtain rfl : d = ⟨1, [], [keyedMember (member 1 7)]⟩ := by simpa [leave] using hd
    refine ⟨memberDecl.toTableSchema, rfl, ⟨fun p hp => ?_, nodup_singleton _, by simp, nodup_nil, by simp⟩⟩
    obtain rfl := mem_singleton.mp hp
    rfl

/-- Alice leaves one of two teams. -/
theorem membership_equals_table_leave : ∃ s, Runs.run (MemberSys.step memberCatalog) (startTeams [member 1 7, member 2 8])
    [leave] = some s ∧ Rebuilt (membershipSpecs [memberDecl]) s := by
  have hun : Unshared (startTeams [member 1 7, member 2 8]) leave := by
    refine ⟨⟨(), rfl⟩, fun m hm d hd e he => .inr ?_⟩
    obtain rfl := mem_singleton.mp hm
    cases hd
    obtain rfl := mem_singleton.mp he
    decide +kernel
  obtain ⟨s, hs⟩ : ∃ s, Runs.run (MemberSys.step memberCatalog) (startTeams [member 1 7, member 2 8]) [leave] = some s := ⟨_, rfl⟩
  refine ⟨s, hs, (membership_equals_table ?_ ?_ hs).1⟩
  · exact ⟨exact_leave 8, fun _ _ => trivial⟩
  · exact ⟨hun, fun _ _ => trivial⟩

/-- **A second membership row is lost.** Alice is in team 7 twice; one of the rows goes, and the index
no longer has the pair of the other. -/
theorem second_membership_row_lost : ∃ s, leave.1.Exact memberCatalog (teams [member 1 7, member 2 7]) ∧
    Runs.run (MemberSys.step memberCatalog) (startTeams [member 1 7, member 2 7]) [leave] = some s ∧ s.base.scan 1 = [member 2 7] ∧ s.members.map (·.2) = [[]] ∧
    memberSees s.members 1 alice (member 2 7) = false ∧ ¬ Rebuilt (membershipSpecs [memberDecl]) s := by
  refine ⟨_, exact_leave 7, rfl, rfl, rfl, rfl, fun h => ?_⟩
  have hset := (h.set _ (mem_singleton.mpr rfl) (alice, beBytes 8 7)).mpr
  exact not_mem_nil (hset (by decide +kernel))

end Fluxum
