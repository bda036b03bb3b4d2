/-
# Global tables across the shards

A global table is written on one authoritative shard. The task of the caller
that committed there plays the diff into every other shard, one after the
other in the order of their ids, before the call returns
(`ShardCoord::replicate_globals`). A diff that a shard refuses ends its call
with the error, and a commit whose log append fails ends its call before
anything is replicated.

* `globals_converge`: once all calls have returned every shard has the rows of
  the authoritative one, if overlapping diffs reach it in order.
* `stale_update_stays`: the tasks of two calls run side by side, and their
  diffs reach a shard in the other order.
-/
import Fluxum.Lib.History
import Fluxum.Txn.Pipeline

namespace Fluxum

open Std History List Function

/-- The registered shards, and the one that writes the global tables. -/
structure Registry where
  shards : List Nat
  authoritative : Nat
  nodup : shards.Nodup

/-- A shard that the global tables are copied to. -/
def Registry.Replica (reg : Registry) (i : Nat) : Prop := i ∈ reg.shards ∧ i ≠ reg.authoritative

/-- A call whose reducer has committed: the diff, and the shards it has still to be played into. -/
structure OpenCall where
  diff : TxDiff
  pending : List Nat

structure ShardCoord where
  store : Nat → MemStore
  calls : List OpenCall

/-- Whether the diff touches a global table. -/
def TxDiff.hasGlobal (diff : TxDiff) (cat : Catalog) : Bool := diff.tables.any fun d => cat.isGlobal d.tableId

namespace ShardCoord

inductive Step (cat : Catalog) where
  /-- A reducer runs on a shard; `logged` tells whether the log takes its commit. -/
  | call (shard : Nat) (reducer : Reducer cat) (logged : Bool)
  /-- A call plays its diff into the next shard. -/
  | apply (call : Nat)

def new (cat : Catalog) : ShardCoord := ⟨fun _ => .new cat, []⟩

def set (s : ShardCoord) (shard : Nat) (store : MemStore) : ShardCoord :=
  { s with store := update s.store shard store }

/-- The shards a commit is played into. -/
def targets (cat : Catalog) (reg : Registry) (shard : Nat) (diff : TxDiff) (logged : Bool) : List Nat :=
  if logged && diff.hasGlobal cat then reg.shards.filter (· ≠ shard) else []

def step (cat : Catalog) (reg : Registry) (s : ShardCoord) : Step cat → Option ShardCoord
  | .call shard reducer logged =>
    if shard ∈ reg.shards then do
      let (out, store) ← (s.store shard).execute cat (reducer.body (shard = reg.authoritative))
      match out with
      | none => return s.set shard store
      | some diff => return { s.set shard store with calls := s.calls ++ [⟨diff, targets cat reg shard diff logged⟩] }
    else none
  | .apply k =>
    match s.calls[k]? with
    | some ⟨diff, shard :: rest⟩ =>
      match (s.store shard).applyReplicatedDiff cat diff with
      | .ok store => some { s.set shard store with calls := s.calls.set k ⟨diff, rest⟩ }
      | .error _ => some { s with calls := s.calls.set k ⟨diff, []⟩ }
    | _ => none

end ShardCoord

/-! ### The condition -/

section Overlaps

variable (cat : Catalog)

/-- The keys of global tables that a diff writes. -/
def TxDiff.keys (diff : TxDiff) : List (Nat × Bytes) :=
  diff.tables.flatMap fun d =>
    match cat.tables[d.tableId]? with
    | some schema =>
      if schema.access = .global then
        (d.deletes.map Prod.fst ++ d.inserts.filterMap fun row => (encodePkOfRow schema row).toOption).map (d.tableId, ·)
      else []
    | none => []

/-- The unique values of global tables in the rows that a diff deletes or inserts. -/
def TxDiff.values (diff : TxDiff) : List (Nat × List Nat × Bytes) :=
  diff.tables.flatMap fun d =>
    match cat.tables[d.tableId]? with
    | some schema =>
      if schema.access = .global then
        schema.unique.flatMap fun columns =>
          (d.deletes.map Prod.snd ++ d.inserts).filterMap fun row =>
            (columnsKey columns row).toOption.map (d.tableId, columns, ·)
      else []
    | none => []

/-- Two diffs write a common key of a global table, or have a common value of a unique constraint. -/
def TxDiff.overlaps (diff diff' : TxDiff) : Bool :=
  (diff.keys cat).any (· ∈ diff'.keys cat) || (diff.values cat).any (· ∈ diff'.values cat)

/-- The log takes every commit of the authoritative shard, and a diff reaches a shard after the earlier
ones that overlap with it. -/
def InOrder (reg : Registry) (s : ShardCoord) : ShardCoord.Step cat → Prop
  | .call shard _ logged => shard = reg.authoritative → logged = true
  | .apply k => ∀ j < k, ∀ earlier ∈ s.calls[j]?, ∀ call ∈ s.calls[k]?, ∀ shard ∈ call.pending.head?,
      earlier.diff.overlaps cat call.diff = true → shard ∉ earlier.pending

instance InOrder.decidable (reg : Registry) (s : ShardCoord) : ∀ l, Decidable (InOrder cat reg s l)
  | .call .. => inferInstanceAs (Decidable (_ → _))
  | .apply _ => inferInstanceAs (Decidable (∀ j < _, ∀ _ ∈ _, ∀ _ ∈ _, ∀ _ ∈ _, _ → _))

end Overlaps

/-! ### Rows and marks -/

variable {store : MemStore}

section Marks

variable {cat : Catalog} {diff : TxDiff} {table : Nat} {pk : Bytes} {row : Row}

/-- The row of a store at a key of a global table. -/
def globalRow (cat : Catalog) (store : MemStore) (p : Nat × Bytes) : Option Row :=
  if cat.isGlobal p.1 then rowIn store.committed p.1 p.2 else none

/-- The row has the value of a unique constraint of its table. -/
def carries (cat : Catalog) (p : Nat × Bytes) (row : Row) (mark : Nat × List Nat × Bytes) : Prop :=
  mark.1 = p.1 ∧ ∃ schema, cat.tables[p.1]? = some schema ∧ mark.2.1 ∈ schema.unique ∧
    columnsKey mark.2.1 row = .ok mark.2.2

theorem globalRow_congr {store store' : MemStore} (h : store'.committed = store.committed) :
    globalRow cat store' = globalRow cat store := by
  unfold globalRow
  rw [h]

theorem distinct_globalRow (h : store.Ok cat) : Distinct (carries cat) (globalRow cat store) := by
  rintro ⟨table, pk⟩ ⟨table', pk'⟩ row row' ⟨t, columns, key⟩ hrow hrow' ⟨rfl, schema, hschema, hcolumns, hkey⟩
    ⟨htable, schema', hschema', -, hkey'⟩
  obtain rfl : t = table' := htable
  cases hschema.symm.trans hschema'
  obtain ⟨state, hstate, rfl⟩ := h.tables.exists_table hschema
  have hat : ∀ k r, globalRow cat store (t, k) = some r → state.rowAt k = some r := by
    intro k r hr
    unfold globalRow at hr
    split at hr
    · simpa [rowIn, hstate] using hr
    · simp at hr
  have hsame := (h.unique t state hstate).distinct columns hcolumns pk pk' row row' key (hat pk row hrow) (hat pk' row' hrow')
    hkey hkey'
  rw [hsame]

theorem isGlobal_of_globalWrite (h : diff.globalWrite cat (table, pk) ≠ none) :
    cat.isGlobal table = true ∧ diff.write cat table pk ≠ none := by
  unfold TxDiff.globalWrite at h
  split at h
  · exact ⟨‹_›, h⟩
  · simp at h

theorem exists_of_write (h : diff.write cat table pk ≠ none) :
    ∃ schema, cat.tables[table]? = some schema ∧ ∃ d ∈ diff.tables, d.tableId = table ∧
      diff.write cat table pk = d.write schema pk := by
  unfold TxDiff.write at h ⊢
  split at h
  · rename_i schema d hschema hfind
    refine ⟨schema, hschema, d, mem_of_find?_eq_some hfind, by simpa using find?_some hfind, rfl⟩
  · simp at h

theorem mem_keys (h : diff.globalWrite cat (table, pk) ≠ none) : (table, pk) ∈ diff.keys cat := by
  obtain ⟨hglobal, hwrite⟩ := isGlobal_of_globalWrite h
  obtain ⟨schema, hschema, d, hd, rfl, heq⟩ := exists_of_write hwrite
  rw [heq, ne_eq, TableDiff.write_eq_none, not_and_or] at hwrite
  have haccess : schema.access = .global := by simpa [isGlobal_eq hschema] using hglobal
  refine mem_flatMap.mpr ⟨d, hd, ?_⟩
  simp only [hschema, if_pos haccess]
  refine mem_map.mpr ⟨pk, mem_append.mpr ?_, rfl⟩
  rcases hwrite with hput | hdel
  · obtain ⟨row, hrow, hkey⟩ : ∃ row ∈ d.inserts, encodePkOfRow schema row = .ok pk := by
      simpa using hput
    exact .inr (mem_filterMap.mpr ⟨row, hrow, toOption_key.mpr hkey⟩)
  · exact .inl (not_not.mp hdel)

theorem mem_values {d : TableDiff} {mark : Nat × List Nat × Bytes} (hd : d ∈ diff.tables) (hglobal : cat.isGlobal d.tableId = true)
    (hrow : row ∈ d.deletes.map Prod.snd ++ d.inserts) (hmark : carries cat (d.tableId, pk) row mark) :
    mark ∈ diff.values cat := by
  obtain ⟨table, columns, key⟩ := mark
  obtain ⟨rfl, schema, hschema, hcolumns, hkey⟩ := hmark
  have haccess : schema.access = .global := by simpa [isGlobal_eq hschema] using hglobal
  refine mem_flatMap.mpr ⟨d, hd, ?_⟩
  simp only [hschema, if_pos haccess]
  refine mem_flatMap.mpr ⟨columns, hcolumns, mem_filterMap.mpr ⟨row, hrow, ?_⟩⟩
  rw [hkey]
  rfl

end Marks

namespace ShardCoord

variable {cat : Catalog} {reg : Registry} {s s' : ShardCoord} {diff : TxDiff} {k : Nat}

/-- What the calls write, in the order of their commits. -/
def writes (cat : Catalog) (s : ShardCoord) (k : Nat) : Write (Nat × Bytes) Row := fun p =>
  s.calls[k]?.bind (·.diff.globalWrite cat p)

/-- The calls that have nothing left to play into the shard. -/
def reached (s : ShardCoord) (shard : Nat) : Set Nat := { k | ∃ c, s.calls[k]? = some c ∧ shard ∉ c.pending }

/-- The global rows after the calls of `S` among the first `n`. -/
noncomputable abbrev after (cat : Catalog) (s : ShardCoord) (S : Set Nat) (n : Nat) : Nat × Bytes → Option Row :=
  replay (s.writes cat) (fun _ => none) S n

/-- The authoritative shard holds what all calls wrote, another one what the calls wrote that have reached
it, which come with the earlier ones they conflict with. -/
structure Inv (cat : Catalog) (reg : Registry) (s : ShardCoord) : Prop where
  stores : ∀ i, (s.store i).Ok cat
  diffs : ∀ c ∈ s.calls, c.diff.Stored cat
  pending : ∀ c ∈ s.calls, c.pending.Nodup ∧ ∀ i ∈ c.pending, reg.Replica i
  full : ∀ p, globalRow cat (s.store reg.authoritative) p = s.after cat Set.univ s.calls.length p
  distinct : ∀ m ≤ s.calls.length, Distinct (carries cat) (s.after cat Set.univ m)
  deletes : ∀ (k : Nat) c, s.calls[k]? = some c → ∀ table pk row, c.diff.globalWrite cat (table, pk) ≠ none →
    s.after cat Set.univ k (table, pk) = some row → ∃ d ∈ c.diff.tables, d.tableId = table ∧ (pk, row) ∈ d.deletes
  replica : ∀ i, reg.Replica i → ∀ p, globalRow cat (s.store i) p = s.after cat (s.reached i) s.calls.length p
  closed : ∀ i, reg.Replica i → Closed (s.writes cat) (fun _ => none) (carries cat) (s.reached i)

theorem inv_new (cat : Catalog) (reg : Registry) : (ShardCoord.new cat).Inv cat reg := by
  have hnone : ∀ p, globalRow cat (.new cat) p = none := by
    intro p
    have hrow : rowIn (MemStore.new cat).committed p.1 p.2 = none := by
      simp only [rowIn, MemStore.new, ExtTreeMap.getElem?_map]
      cases cat.tables[p.1]? <;> simp [TableState.rowAt, TableState.empty]
    simp [globalRow, hrow]
  refine ⟨fun _ => memStore_ok_new cat, by simp [new], by simp [new], fun p => hnone p, fun m hm => ?_, ?_, fun _ _ p => hnone p, ?_⟩
  · obtain rfl : m = 0 := by simpa [new] using hm
    intro k k' v v' t hk
    simp [replay] at hk
  · intro k c hc
    simp [new] at hc
  · rintro i - k ⟨c, hc, -⟩
    simp [new] at hc

theorem exists_call {p : Nat × Bytes} (h : s.writes cat k p ≠ none) :
    ∃ c, s.calls[k]? = some c ∧ s.writes cat k p = c.diff.globalWrite cat p := by
  unfold writes at h ⊢
  cases hc : s.calls[k]? with
  | none => simp [hc] at h
  | some c => exact ⟨c, rfl, rfl⟩

/-- A mark that a call mentions is among the values of its diff. -/
theorem Inv.mem_values (h : s.Inv cat reg) {mark : Nat × List Nat × Bytes}
    (hmention : Mentions (s.writes cat) (fun _ => none) (carries cat) k mark) :
    ∃ c, s.calls[k]? = some c ∧ mark ∈ c.diff.values cat := by
  obtain ⟨⟨table, pk⟩, row, hmark, hput⟩ := hmention
  have hne : s.writes cat k (table, pk) ≠ none := by
    rcases hput with hput | ⟨hne, -⟩
    · simp [hput]
    · exact hne
  obtain ⟨c, hc, heq⟩ := exists_call hne
  rw [heq] at hne hput
  obtain ⟨hglobal, hwrite⟩ := isGlobal_of_globalWrite hne
  rcases hput with hput | ⟨-, hold⟩
  · obtain ⟨schema, -, d, hd, rfl, heq⟩ := exists_of_write hwrite
    rw [TxDiff.globalWrite, if_pos hglobal, heq] at hput
    exact ⟨c, hc, Fluxum.mem_values hd hglobal (mem_append_right _ (TableDiff.mem_of_write hput).1) hmark⟩
  · obtain ⟨d, hd, rfl, hdel⟩ := h.deletes k c hc table pk row hne hold
    exact ⟨c, hc, Fluxum.mem_values hd hglobal (mem_append_left _ (mem_map_of_mem hdel)) hmark⟩

/-- **Conflicting calls have overlapping diffs.** -/
theorem Inv.overlaps (h : s.Inv cat reg) {j k : Nat} (hconf : Conflict (s.writes cat) (fun _ => none) (carries cat) j k) :
    ∃ c c', s.calls[j]? = some c ∧ s.calls[k]? = some c' ∧ c.diff.overlaps cat c'.diff = true := by
  rcases hconf with ⟨p, hj, hk⟩ | ⟨t, hj, hk⟩
  · obtain ⟨c, hc, heq⟩ := exists_call hj
    obtain ⟨c', hc', heq'⟩ := exists_call hk
    refine ⟨c, c', hc, hc', Bool.or_eq_true_iff.mpr (.inl (any_eq_true.mpr ⟨p, mem_keys (heq ▸ hj), ?_⟩))⟩
    exact decide_eq_true (mem_keys (heq' ▸ hk))
  · obtain ⟨c, hc, hmem⟩ := h.mem_values hj
    obtain ⟨c', hc', hmem'⟩ := h.mem_values hk
    exact ⟨c, c', hc, hc', Bool.or_eq_true_iff.mpr (.inr (any_eq_true.mpr ⟨t, hmem, decide_eq_true hmem'⟩))⟩

theorem Inv.stores_set {shard : Nat} (h : s.Inv cat reg) (hstore : store.Ok cat) (i : Nat) :
    ((s.set shard store).store i).Ok cat := by
  simp only [set, update_apply]
  split
  · exact hstore
  · exact h.stores i

/-! ### A call commits -/

section Append

variable {shard : Nat} {store : MemStore}

/-- The coordinator after a commit. -/
def commit (s : ShardCoord) (shard : Nat) (store : MemStore) (c : OpenCall) : ShardCoord :=
  { s.set shard store with calls := s.calls ++ [c] }

variable {c : OpenCall}

theorem writes_commit_of_lt (hk : k < s.calls.length) :
    (s.commit shard store c).writes cat k = s.writes cat k := by
  funext p
  simp [writes, commit, getElem?_append_left hk]

theorem writes_commit_length (p : Nat × Bytes) :
    (s.commit shard store c).writes cat s.calls.length p = c.diff.globalWrite cat p := by
  simp [writes, commit]

theorem mem_reached_commit_of_lt {i k : Nat} (hk : k < s.calls.length) :
    k ∈ (s.commit shard store c).reached i ↔ k ∈ s.reached i := by
  simp [reached, commit, getElem?_append_left hk]

theorem lt_of_mem_reached {i k : Nat} (h : k ∈ s.reached i) : k < s.calls.length := by
  obtain ⟨c, hc, -⟩ := h
  exact (List.getElem?_eq_some_iff.mp hc).1

theorem after_commit {S S' : Set Nat} {m : Nat} (hm : m ≤ s.calls.length) (hS : ∀ k < s.calls.length, k ∈ S' ↔ k ∈ S)
    (p : Nat × Bytes) : (s.commit shard store c).after cat S' m p = s.after cat S m p :=
  replay_congr (fun k hk => congrFun (writes_commit_of_lt (by omega)) p) fun k hk => hS k (by omega)

theorem after_commit_succ {S : Set Nat} (h : s.calls.length ∈ S) (p : Nat × Bytes) :
    (s.commit shard store c).after cat S (s.calls.length + 1) p =
      (c.diff.globalWrite cat p).getD ((s.commit shard store c).after cat S s.calls.length p) := by
  rw [after, replay_succ_of_mem h, writes_commit_length]

/-- **A commit keeps the invariant**: on the authoritative shard with a diff that is played into all others,
or with a diff that is of no global table. -/
theorem Inv.commit (h : s.Inv cat reg) (hstore : store.Ok cat) (hdiff : c.diff.Stored cat)
    (hpending : c.pending.Nodup ∧ ∀ i ∈ c.pending, reg.Replica i)
    (hauth : ∀ p, globalRow cat (update s.store shard store reg.authoritative) p =
      (c.diff.globalWrite cat p).getD (globalRow cat (s.store reg.authoritative) p))
    (hdeletes : ∀ table pk row, c.diff.globalWrite cat (table, pk) ≠ none →
      globalRow cat (s.store reg.authoritative) (table, pk) = some row →
      ∃ d ∈ c.diff.tables, d.tableId = table ∧ (pk, row) ∈ d.deletes)
    (hothers : ∀ i, reg.Replica i → globalRow cat (update s.store shard store i) = globalRow cat (s.store i))
    (htargets : (∀ p, c.diff.globalWrite cat p = none) ∨ ∀ i, reg.Replica i → i ∈ c.pending) :
    (s.commit shard store c).Inv cat reg := by
  have hlen : (s.commit shard store c).calls.length = s.calls.length + 1 := by simp [ShardCoord.commit]
  have hmem : ∀ c' ∈ (s.commit shard store c).calls, c' ∈ s.calls ∨ c' = c := by
    simp [ShardCoord.commit]
  have hnew : ∀ k c', (s.commit shard store c).calls[k]? = some c' →
      s.calls[k]? = some c' ∧ k < s.calls.length ∨ k = s.calls.length ∧ c' = c := by
    intro k c' hc
    rcases Nat.lt_trichotomy k s.calls.length with hlt | rfl | hgt
    · exact .inl ⟨by simpa [ShardCoord.commit, getElem?_append_left hlt] using hc, hlt⟩
    · exact .inr ⟨rfl, by simpa [ShardCoord.commit, eq_comm] using hc⟩
    · have hlt := (List.getElem?_eq_some_iff.mp hc).1
      omega
  have hfull : ∀ p, (s.commit shard store c).after cat Set.univ (s.calls.length + 1) p =
      globalRow cat (update s.store shard store reg.authoritative) p := by
    intro p
    rw [after_commit_succ (Set.mem_univ _), after_commit le_rfl fun _ _ => Iff.rfl, hauth, h.full]
  -- a shard the new call has nothing for: the call writes no global table
  have hsilent : ∀ i, reg.Replica i →
      s.calls.length ∈ (s.commit shard store c).reached i → ∀ p, c.diff.globalWrite cat p = none := by
    rintro i hi ⟨c', hc, hno⟩
    obtain rfl : c' = c := by simpa [ShardCoord.commit, eq_comm] using hc
    rcases htargets with hnone | hall
    · exact hnone
    · exact absurd (hall i hi) hno
  refine ⟨h.stores_set hstore, fun c' hc => ?_, fun c' hc => ?_, fun p => ?_, fun m hm => ?_, ?_, ?_, ?_⟩
  · rcases hmem c' hc with hc | rfl
    · exact h.diffs c' hc
    · exact hdiff
  · rcases hmem c' hc with hc | rfl
    · exact h.pending c' hc
    · exact hpending
  · rw [hlen, hfull]
    rfl
  · rw [hlen] at hm
    rcases Nat.lt_or_eq_of_le hm with hlt | rfl
    · have heq : (s.commit shard store c).after cat Set.univ m = s.after cat Set.univ m :=
        funext fun p => after_commit (by omega) (fun _ _ => Iff.rfl) p
      rw [heq]
      exact h.distinct m (by omega)
    · have heq := funext hfull
      rw [heq, update_apply]
      split
      · exact distinct_globalRow hstore
      · exact distinct_globalRow (h.stores _)
  · intro k c' hc table pk row hwrite hrow
    rcases hnew k c' hc with ⟨hc, hlt⟩ | ⟨rfl, rfl⟩
    · rw [after_commit hlt.le fun _ _ => Iff.rfl] at hrow
      exact h.deletes k c' hc table pk row hwrite hrow
    · rw [after_commit le_rfl fun _ _ => Iff.rfl, ← h.full] at hrow
      exact hdeletes table pk row hwrite hrow
  · intro i hi p
    have hkept : (s.commit shard store c).after cat ((s.commit shard store c).reached i)
        s.calls.length p = s.after cat (s.reached i) s.calls.length p :=
      after_commit le_rfl (fun k hk => mem_reached_commit_of_lt hk) p
    rw [hlen]
    refine (congrFun (hothers i hi) p).trans ((h.replica i hi p).trans ?_)
    by_cases hlast : s.calls.length ∈ (s.commit shard store c).reached i
    · rw [after_commit_succ hlast, hsilent i hi hlast p]
      exact hkept.symm
    · exact hkept.symm.trans (replay_succ_of_not_mem hlast).symm
  · intro i hi k hk j hjk hconf
    have hlt := lt_of_mem_reached hk
    rw [hlen] at hlt
    rcases Nat.lt_or_eq_of_le (Nat.lt_succ_iff.mp hlt) with hlt | rfl
    · refine (mem_reached_commit_of_lt (by omega)).mpr (h.closed i hi k ((mem_reached_commit_of_lt hlt).mp hk) j hjk ?_)
      exact hconf.congr (fun l hl => writes_commit_of_lt (by omega)) hjk.le
    · refine absurd hconf (not_conflict_of_silent fun p => ?_)
      rw [writes_commit_length]
      exact hsilent i hi hk p

end Append

theorem Inv.setStore {shard : Nat} (h : s.Inv cat reg) (hstore : store.Ok cat)
    (hsame : globalRow cat store = globalRow cat (s.store shard)) : (s.set shard store).Inv cat reg := by
  have hrow : ∀ i, globalRow cat ((s.set shard store).store i) = globalRow cat (s.store i) := by
    intro i
    simp only [set, update_apply]
    split
    · rename_i heq
      rw [hsame, heq]
    · rfl
  refine ⟨h.stores_set hstore, h.diffs, h.pending, fun p => ?_, h.distinct, h.deletes, fun i hi p => ?_, h.closed⟩
  · rw [hrow]
    exact h.full p
  · rw [hrow]
    exact h.replica i hi p

/-! ### A reducer on a replica leaves the global tables -/

/-- No operation on a global table is pending. -/
def NoGlobal (cat : Catalog) (tx : Tx) : Prop := ∀ table pk, cat.isGlobal table = true → tx.op table pk = none

theorem isGlobal_of_checkGlobal {srv : Services cat} {schema : TableSchema} {table : Nat}
    (hschema : cat.tables[table]? = some schema) (h : checkGlobal (srv.onShard false) schema = .ok ()) :
    cat.isGlobal table = false := by
  rw [isGlobal_eq hschema, decide_eq_false_iff_not]
  intro hglobal
  simp [checkGlobal, hglobal, Services.onShard] at h

theorem NoGlobal.setOp {tx : Tx} {table : Nat} {pk : Bytes} (h : NoGlobal cat tx) (htable : cat.isGlobal table = false)
    (o : Option PendingOp) : NoGlobal cat (tx.setOp table pk o) := by
  intro table' pk' hglobal
  rw [Tx.op_setOp, if_neg]
  · exact h table' pk' hglobal
  · rintro ⟨rfl, -⟩
    simp [htable] at hglobal

theorem kept_noGlobal (srv : Services cat) : Tx.Kept (srv.onShard false) (NoGlobal cat) := by
  have hwriter : ∀ {tx : Tx} (writer : WriterState), NoGlobal cat tx → NoGlobal cat { tx with writer } := fun _ h => h
  refine .of_parts (fun h _ => hwriter _ h) (fun h hw => ?_) fun _ op h hschema hcheck _ =>
    h.setOp (isGlobal_of_checkGlobal hschema hcheck) op
  obtain ⟨schema, _, writer, _, pk, _, _, op, hprepare, -, -, -, -, -, -, -, -, rfl⟩ := write_eq_ok hw
  obtain ⟨hschema, hcheck, -, -⟩ := prepare_eq_ok hprepare
  exact (hwriter writer h).setOp (isGlobal_of_checkGlobal hschema hcheck) op

theorem hasGlobal_of_commit {tx : Tx} (h : NoGlobal cat tx)
    (hcommit : tx.commit cat = .ok (diff, store)) : diff.hasGlobal cat = false := by
  rw [TxDiff.hasGlobal, any_eq_false]
  intro d hd hglobal
  have hmem : d.tableId ∈ (touched tx.pending.toList).map Prod.fst := commit_ids hcommit ▸ mem_map_of_mem hd
  obtain ⟨⟨table, ops⟩, hp, heq⟩ := mem_map.mp hmem
  obtain rfl : table = d.tableId := heq
  obtain ⟨pk, op, hop⟩ := exists_op_of_touched hp
  simp [h d.tableId pk hglobal] at hop

theorem globalWrite_eq_none (h : diff.hasGlobal cat = false) (p : Nat × Bytes) :
    diff.globalWrite cat p = none := by
  by_contra hne
  obtain ⟨hglobal, hwrite⟩ := isGlobal_of_globalWrite hne
  obtain ⟨schema, -, d, hd, hid, -⟩ := exists_of_write hwrite
  rw [TxDiff.hasGlobal, any_eq_false] at h
  exact h d hd (hid ▸ hglobal)

/-! ### Both steps keep the invariant -/

/-- **A call keeps the invariant.** -/
theorem Inv.call (h : s.Inv cat reg) {shard : Nat} {reducer : Reducer cat} {logged : Bool}
    (hlog : shard = reg.authoritative → logged = true)
    (hstep : s.step cat reg (.call shard reducer logged) = some s') : s'.Inv cat reg := by
  simp only [step] at hstep
  split at hstep
  case isFalse => simp at hstep
  obtain ⟨⟨out, store⟩, hexec, hstep⟩ := Option.bind_eq_some_iff.mp hstep
  have hstore := (h.stores shard).execute hexec
  cases out with
  | none =>
    cases hstep
    obtain ⟨returned, tx, hbody, rfl⟩ := execute_rolledBack hexec
    exact h.setStore hstore (globalRow_congr (Reducer.body_okOver (h.stores shard) hbody).2)
  | some diff =>
  cases hstep
  obtain ⟨tx, hbody, hcommit⟩ := execute_committed hexec
  have hok := Reducer.body_okOver (h.stores shard) hbody
  have hdiff := commit_stored hok.1 (hok.2 ▸ (h.stores shard).unique) hcommit
  have hrows (p) : globalRow cat store p = (diff.globalWrite cat p).getD (globalRow cat (s.store shard) p) := by
    unfold globalRow TxDiff.globalWrite
    rw [commit_rowIn_write hok.1 hcommit, hok.2]
    split <;> rfl
  by_cases hshard : shard = reg.authoritative
  · subst hshard
    obtain rfl := hlog rfl
    refine h.commit hstore hdiff ?_ (fun p => ?_) (fun table pk row hwrite hrow => ?_) (fun i hi => ?_) ?_
    · unfold targets
      split
      · refine ⟨reg.nodup.filter _, fun i hi => ?_⟩
        simpa [Registry.Replica] using hi
      · simp
    · rw [update_self]
      exact hrows p
    · obtain ⟨hglobal, hwrite⟩ := isGlobal_of_globalWrite hwrite
      rw [globalRow, if_pos hglobal, ← hok.2] at hrow
      exact commit_deletes hok.1 hcommit hwrite hrow
    · rw [update_of_ne hi.2]
    · cases hglobal : diff.hasGlobal cat with
      | false => exact .inl (globalWrite_eq_none hglobal)
      | true =>
        refine .inr fun i hi => ?_
        simp [targets, hglobal, hi.1, hi.2]
  · have hbody' : reducer.body false (s.store shard).begin = some (true, tx) := by simpa [hshard] using hbody
    have hno : NoGlobal cat tx := reducer.body_kept kept_noGlobal
      (fun table pk _ => by simp [MemStore.begin, Tx.op, Tx.ops]) hbody'
    have hglobal := hasGlobal_of_commit hno hcommit
    have hsilent := globalWrite_eq_none hglobal
    have hsame : globalRow cat store = globalRow cat (s.store shard) := by
      funext p
      rw [hrows, hsilent]
      rfl
    have htargets : targets cat reg shard diff logged = [] := by simp [targets, hglobal]
    rw [htargets]
    refine h.commit hstore hdiff (by simp) (fun p => ?_) (fun table pk row hwrite _ => absurd (hsilent _) hwrite)
      (fun i _ => ?_) (.inl hsilent)
    · rw [update_of_ne (Ne.symm hshard), hsilent]
      rfl
    rw [update_apply]
    split
    · rename_i heq
      rw [hsame, heq]
    · rfl

/-- The coordinator after a call has played its diff into a shard. -/
def advance (s : ShardCoord) (k shard : Nat) (store : MemStore) (c : OpenCall) : ShardCoord :=
  { s.set shard store with calls := s.calls.set k c }

section Advance

variable {k shard : Nat} {c c' : OpenCall} {store : MemStore} {rest : List Nat}

theorem getElem?_advance (hc : s.calls[k]? = some c) (j : Nat) :
    (s.advance k shard store c').calls[j]? = if j = k then some c' else s.calls[j]? := by
  have hlt := (List.getElem?_eq_some_iff.mp hc).1
  by_cases hj : j = k
  · subst hj
    simp [advance, hlt]
  · simp [advance, hj, Ne.symm hj]

theorem reached_advance (hc : s.calls[k]? = some c) (hpending : c.pending = shard :: c'.pending) (hnodup : c.pending.Nodup)
    (i : Nat) : (s.advance k shard store c').reached i = if i = shard then insert k (s.reached shard) else s.reached i := by
  ext j
  rw [hpending, nodup_cons] at hnodup
  have hmem : j ∈ (s.advance k shard store c').reached i ↔ if j = k then i ∉ c'.pending else j ∈ s.reached i := by
    unfold reached
    simp only [Set.mem_ofPred_eq, getElem?_advance hc]
    by_cases hj : j = k <;> simp [hj]
  have hk : k ∈ s.reached i ↔ i ∉ c.pending := by simp [reached, hc]
  rw [hmem]
  by_cases hi : i = shard
  · subst hi
    by_cases hj : j = k <;> simp [hj, hnodup.1]
  by_cases hj : j = k
  · subst hj
    simp [hi, hk, hpending]
  · simp [hi, hj]

/-- A call that plays its diff into a shard keeps the invariant. -/
theorem Inv.advance (h : s.Inv cat reg) (hc : s.calls[k]? = some c) (hdiff : c'.diff = c.diff)
    (hpending : c.pending = shard :: c'.pending) (hstore : store.Ok cat)
    (hrows : ∀ p, globalRow cat store p = (c.diff.globalWrite cat p).getD (globalRow cat (s.store shard) p))
    (hconf : ∀ j < k, Conflict (s.writes cat) (fun _ => none) (carries cat) j k → j ∈ s.reached shard) :
    (s.advance k shard store c').Inv cat reg := by
  have hmem := List.mem_of_getElem? hc
  have hlt := (List.getElem?_eq_some_iff.mp hc).1
  obtain ⟨hnodup, htargets⟩ := h.pending c hmem
  have hshard := htargets shard (by simp [hpending])
  have hk : k ∉ s.reached shard := by
    rintro ⟨c₁, hc₁, hno⟩
    cases hc.symm.trans hc₁
    simp [hpending] at hno
  have hclosed := h.closed shard hshard
  have hwrites : (s.advance k shard store c').writes cat = s.writes cat := by
    funext j p
    unfold writes
    rw [getElem?_advance hc]
    split
    · rename_i heq
      rw [heq, hc, Option.bind_some, Option.bind_some, hdiff]
    · rfl
  have hreached : ∀ i, (s.advance k shard store c').reached i = if i = shard then insert k (s.reached shard) else s.reached i :=
    reached_advance hc hpending hnodup
  have hafter : ∀ S n, (s.advance k shard store c').after cat S n = s.after cat S n := by
    intro S n
    unfold after
    rw [hwrites]
  have hlen : (s.advance k shard store c').calls.length = s.calls.length := by simp [ShardCoord.advance]
  have hcalls : ∀ c₁ ∈ (s.advance k shard store c').calls, c₁ ∈ s.calls ∨ c₁ = c' := fun c₁ h₁ =>
    List.mem_or_eq_of_mem_set h₁
  refine ⟨h.stores_set hstore, fun c₁ h₁ => ?_, fun c₁ h₁ => ?_, fun p => ?_, fun m hm => ?_, ?_, fun i hi p => ?_,
    fun i hi => ?_⟩
  · rcases hcalls c₁ h₁ with h₁ | rfl
    · exact h.diffs c₁ h₁
    · exact hdiff ▸ h.diffs c hmem
  · rcases hcalls c₁ h₁ with h₁ | rfl
    · exact h.pending c₁ h₁
    · rw [hpending] at hnodup htargets
      exact ⟨(List.nodup_cons.mp hnodup).2, fun i hi => htargets i (List.mem_cons_of_mem _ hi)⟩
  · rw [hafter, hlen, ← h.full]
    simp only [ShardCoord.advance, set, update_of_ne (Ne.symm hshard.2)]
  · rw [hafter]
    exact h.distinct m (hlen ▸ hm)
  · intro j c₁ h₁ table pk row hwrite hrow
    rw [hafter] at hrow
    rw [getElem?_advance hc] at h₁
    split at h₁
    · rename_i heq
      subst heq
      cases h₁
      rw [hdiff] at hwrite ⊢
      exact h.deletes j c hc table pk row hwrite hrow
    · exact h.deletes j c₁ h₁ table pk row hwrite hrow
  · rw [hafter, hlen, hreached]
    by_cases heq : i = shard
    · subst heq
      rw [if_pos rfl, after, hclosed.replay_insert hk hlt, writes, hc, Option.bind_some, ← after, ← h.replica i hi, ← hrows]
      simp only [ShardCoord.advance, set, update_self]
    · rw [if_neg heq, ← h.replica i hi]
      simp only [ShardCoord.advance, set, update_of_ne heq]
  · rw [hwrites, hreached]
    split
    · exact hclosed.extend hconf
    · exact h.closed i hi

end Advance

/-- **The diff of a call fits the shard it reaches**, if the earlier ones it overlaps with have reached it. -/
theorem Inv.fits (h : s.Inv cat reg) {k shard : Nat} {c : OpenCall} (hc : s.calls[k]? = some c)
    (hshard : reg.Replica shard) (hk : k ∉ s.reached shard)
    (hconf : ∀ j < k, Conflict (s.writes cat) (fun _ => none) (carries cat) j k → j ∈ s.reached shard)
    {d : TableDiff} (hd : d ∈ c.diff.tables) {schema : TableSchema} (hschema : cat.tables[d.tableId]? = some schema)
    (haccess : schema.access = .global) : d.Fits schema (rowIn (s.store shard).committed d.tableId) := by
  have hlt := (List.getElem?_eq_some_iff.mp hc).1
  have hnodup := (h.diffs c (List.mem_of_getElem? hc)).nodup
  have hglobal : cat.isGlobal d.tableId = true := by simp [isGlobal_eq hschema, haccess]
  have hclosed := h.closed shard hshard
  have hwrites : ∀ pk, s.writes cat k (d.tableId, pk) = d.write schema pk := by
    intro pk
    rw [writes, hc, Option.bind_some, TxDiff.globalWrite, if_pos hglobal, TxDiff.write_of_mem hnodup hd hschema]
  have hrow : ∀ pk, rowIn (s.store shard).committed d.tableId pk =
      s.after cat (s.reached shard) s.calls.length (d.tableId, pk) := by
    intro pk
    rw [← h.replica shard hshard, globalRow, if_pos hglobal]
  constructor
  · intro pk row hwrite hthere
    rw [← hwrites] at hwrite
    rw [hrow, after, hclosed.replay_eq hk hlt hconf hwrite] at hthere
    have hwrite' : c.diff.globalWrite cat (d.tableId, pk) ≠ none := by rwa [writes, hc, Option.bind_some] at hwrite
    obtain ⟨d', hd', hid, hdel⟩ := h.deletes k c hc d.tableId pk row hwrite' hthere
    have hfind := TxDiff.find_eq hnodup hd'
    rw [hid, TxDiff.find_eq hnodup hd] at hfind
    cases hfind
    exact List.mem_map_of_mem hdel
  · have hdistinct := (hclosed.extend hconf).distinct (n := s.calls.length) fun m hm => h.distinct m hm
    intro columns hcolumns pk pk' row row' key hpk hpk' hkey hkey'
    have hat : ∀ pk, (d.write schema pk).getD (rowIn (s.store shard).committed d.tableId pk) =
        replay (s.writes cat) (fun _ => none) (insert k (s.reached shard)) s.calls.length (d.tableId, pk) := by
      intro pk
      rw [hclosed.replay_insert hk hlt, hwrites, hrow]
    have hpk := (hat pk).symm.trans hpk
    have hpk' := (hat pk').symm.trans hpk'
    exact (Prod.mk.inj (hdistinct _ _ row row' (d.tableId, columns, key) hpk hpk' ⟨rfl, schema, hschema, hcolumns, hkey⟩
      ⟨rfl, schema, hschema, hcolumns, hkey'⟩)).2

/-- **A diff that reaches a shard in order keeps the invariant.** -/
theorem Inv.apply (h : s.Inv cat reg) (hcond : InOrder cat reg s (.apply k))
    (hstep : s.step cat reg (.apply k) = some s') : s'.Inv cat reg := by
  simp only [step] at hstep
  split at hstep
  case h_2 => simp at hstep
  rename_i diff shard rest hc
  have hmem := mem_of_getElem? hc
  have hshard := (h.pending _ hmem).2 shard (by simp)
  have hk : k ∉ s.reached shard := by
    rintro ⟨c, hc', hno⟩
    cases hc.symm.trans hc'
    simp at hno
  have hconf : ∀ j < k, Conflict (s.writes cat) (fun _ => none) (carries cat) j k → j ∈ s.reached shard := by
    intro j hj hconf
    obtain ⟨c, c', hcj, hck, hover⟩ := h.overlaps hconf
    cases hc.symm.trans hck
    exact ⟨c, hcj, hcond j hj c hcj _ hc shard (by simp) hover⟩
  obtain ⟨store, happly, hstore, hrows⟩ := applyReplicatedDiff_succeeds (h.stores shard) (h.diffs _ hmem)
    fun d hd schema hschema haccess => h.fits hc hshard hk hconf hd hschema haccess
  rw [happly] at hstep
  cases hstep
  refine h.advance hc rfl rfl hstore (fun p => ?_) hconf
  simp only [globalRow, hrows]
  unfold TxDiff.globalWrite
  split <;> rfl

end ShardCoord

/-- **Global tables converge.** In every run in which the log takes the commits of the authoritative shard
and a diff reaches a shard after the earlier ones it overlaps with: once all calls have returned, every
shard has the authoritative rows in every global table. -/
theorem globals_converge {cat : Catalog} {reg : Registry} {steps : List (ShardCoord.Step cat)} {s : ShardCoord}
    (hrun : Runs.run (ShardCoord.step cat reg) (.new cat) steps = some s)
    (hcond : Runs.Meets (ShardCoord.step cat reg) (InOrder cat reg) (.new cat) steps)
    (hreturned : ∀ c ∈ s.calls, c.pending = []) {shard table : Nat} (hshard : shard ∈ reg.shards)
    (hglobal : cat.isGlobal table = true) :
    rowIn (s.store shard).committed table = rowIn (s.store reg.authoritative).committed table := by
  have hinv : s.Inv cat reg := by
    refine Runs.run_invariant_of_meets (fun s l s' h hcond hstep => ?_) (ShardCoord.inv_new cat reg) hcond hrun
    cases l with
    | call shard reducer logged => exact h.call hcond hstep
    | apply k => exact h.apply hcond hstep
  by_cases hne : shard = reg.authoritative
  · rw [hne]
  funext pk
  have hrow : ∀ store, rowIn store.committed table pk = globalRow cat store (table, pk) := fun store => by
    rw [globalRow, if_pos hglobal]
  rw [hrow, hrow, hinv.replica shard ⟨hshard, hne⟩, hinv.full]
  refine History.replay_congr (fun _ _ => rfl) fun k hk => ?_
  simp only [Set.mem_univ, iff_true]
  obtain ⟨c, hc⟩ : ∃ c, s.calls[k]? = some c := ⟨_, getElem?_eq_getElem hk⟩
  exact ⟨c, hc, by simp [hreturned c (mem_of_getElem? hc)]⟩

/-! ### Two updates of one row -/

/-- The accounts as a global table. -/
def globalAccounts : Catalog :=
  { accountCatalog with
    tables := ExtTreeMap.ofList [(1, { accountSchema with access := .global })]
    fks_valid := by simp [accountCatalog]
    sealed_primaryKey := by simp [accountCatalog] }

/-- Two shards; the first one writes the accounts. -/
def twoShards : Registry := ⟨[0, 1], 0, by decide⟩

/-- A reducer that sets the age of account 1. -/
def setAge (age : BitVec 32) : Reducer globalAccounts :=
  ⟨[(plainServices globalAccounts, .upsert 1 (account 1 [7] age))], true⟩

/-- The account is inserted everywhere, then two calls update it; `last` are the steps of their tasks. -/
def ageRun (last : List (ShardCoord.Step globalAccounts)) : List (ShardCoord.Step globalAccounts) :=
  [.call 0 (setAge 30) true, .apply 0, .call 0 (setAge 31) true, .call 0 (setAge 32) true] ++ last

def firstAccount (s : ShardCoord) (shard : Nat) : Option Row :=
  (s.store shard).committed[1]?.bind fun t => t.rows.toList.head?.map Prod.snd

theorem globals_converge_ageRun : ∃ s,
    Runs.run (ShardCoord.step globalAccounts twoShards) (.new globalAccounts) (ageRun [.apply 1, .apply 2]) = some s ∧
    firstAccount s 1 = some (account 1 [7] 32) ∧ rowIn (s.store 1).committed 1 = rowIn (s.store 0).committed 1 := by
  obtain ⟨s, hrun, hreturned, hfirst⟩ :
      ∃ s ∈ Runs.run (ShardCoord.step globalAccounts twoShards) (.new globalAccounts) (ageRun [.apply 1, .apply 2]),
        (∀ c ∈ s.calls, c.pending = []) ∧ firstAccount s 1 = some (account 1 [7] 32) := by
    decide +kernel
  exact ⟨s, hrun, hfirst, globals_converge hrun (by decide +kernel) hreturned (by decide) (by decide +kernel)⟩

/-- **A stale update stays.** The second update reaches the other shard first; when both calls have
returned, that shard has the first one. -/
theorem stale_update_stays : ∃ s,
    Runs.run (ShardCoord.step globalAccounts twoShards) (.new globalAccounts) (ageRun [.apply 2, .apply 1]) = some s ∧
    (∀ c ∈ s.calls, c.pending = []) ∧ firstAccount s 0 = some (account 1 [7] 32) ∧
    firstAccount s 1 = some (account 1 [7] 31) := by
  decide +kernel

-- A commit that the log does not take stays on the authoritative shard.
example : (Runs.run (ShardCoord.step globalAccounts twoShards) (.new globalAccounts) [.call 0 (setAge 30) false]).any
    (fun s => s.calls.all (·.pending.isEmpty) && (firstAccount s 0).isSome && (firstAccount s 1).isNone) = true := by
  decide +kernel

end Fluxum
