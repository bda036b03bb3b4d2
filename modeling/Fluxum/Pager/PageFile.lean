/-
# The extents of a page file

The allocator of `store/pager/pagefile.rs`: records in slots of whole 256-byte
units, taken first-fit from a list of free slots or from the end of the file,
and given back with their neighbours joined. A write whose I/O fails keeps its
slot allocated, and nobody has it.

* `extents_never_overlap`: the slots in use, the free slots and the superblock
  are apart, in any order of writes and frees, and free slots are joined.
* `empty_image_splits_free_slots`: a slot of length zero, which only an empty
  image makes, can stand between two that should be joined.
-/
import Fluxum.Lib.Runs
import Fluxum.Lib.OrdMap
import Fluxum.Lib.Bytes
import Mathlib.Data.List.Pairwise

namespace Fluxum
namespace Pager

open Std List ExtTreeMap OrdMap

/-! ### The allocator -/

structure Extent where
  offset : Nat
  len : Nat
deriving DecidableEq, Repr

def extentAlign : Nat := 256

def slotLen (len : Nat) : Nat := (len + (extentAlign - 1)) / extentAlign * extentAlign

/-- The allocation frontier, and the length of each free slot by its offset. -/
structure PageFile where
  frontier : Nat
  free : ExtTreeMap Nat Nat

namespace PageFile

/-- `open`, for a file of this length; a new file has its superblock alone. -/
def reopen (fileLen : Nat) : PageFile := ⟨slotLen (max fileLen extentAlign), ∅⟩

/-- First fit, with the rest of the slot left free. -/
def allocate (f : PageFile) (slot : Nat) : Nat × PageFile :=
  match f.free.toList.find? (slot ≤ ·.2) with
  | some p =>
    let free := f.free.erase p.1
    (p.1, { f with free := if slot < p.2 then free.insert (p.1 + slot) (p.2 - slot) else free })
  | none => (f.frontier, { f with frontier := f.frontier + slot })

/-- Write a page image to a new extent; the flag says whether the I/O succeeds. -/
def writePage (f : PageFile) (image : Bytes) (written : Bool) : Option Extent × PageFile :=
  let r := f.allocate (slotLen image.length)
  (if written then some ⟨r.1, image.length⟩ else none, r.2)

/-- The free slot that begins last before an offset. -/
def slotBefore (free : ExtTreeMap Nat Nat) (offset : Nat) : Option (Nat × Nat) :=
  (free.toList.filter (·.1 < offset)).getLast?

/-- Join the slot before, if it ends where this one begins. -/
def joinBefore (free : ExtTreeMap Nat Nat) (a : Nat × Nat) : ExtTreeMap Nat Nat × (Nat × Nat) :=
  match slotBefore free a.1 with
  | some p => if p.1 + p.2 = a.1 then (free.erase p.1, (p.1, a.2 + p.2)) else (free, a)
  | none => (free, a)

/-- Join the slot after, and put the result in. -/
def joinAfter (free : ExtTreeMap Nat Nat) (a : Nat × Nat) : ExtTreeMap Nat Nat :=
  match free[a.1 + a.2]? with
  | some next => (free.erase (a.1 + a.2)).insert a.1 (a.2 + next)
  | none => free.insert a.1 a.2

def freeExtent (f : PageFile) (e : Extent) : PageFile :=
  let r := joinBefore f.free (e.offset, slotLen e.len)
  { f with free := joinAfter r.1 r.2 }

end PageFile

/-- A page file and the extents in use. -/
structure Layout where
  file : PageFile
  live : List Extent

inductive FileOp where
  | write (image : Bytes) (written : Bool)
  | free (e : Extent)
deriving DecidableEq, Repr

namespace Layout

/-- An extent is freed only while it is in use. -/
def step (s : Layout) : FileOp → Option Layout
  | .write image written =>
    let r := s.file.writePage image written
    some ⟨r.2, r.1.toList ++ s.live⟩
  | .free e => if e ∈ s.live then some ⟨s.file.freeExtent e, s.live.erase e⟩ else none

def slotOf (e : Extent) : Nat × Nat := (e.offset, slotLen e.len)

/-- The superblock, the slots in use and the free slots. -/
def slots (s : Layout) : List (Nat × Nat) := s.file.free.toList ++ (0, extentAlign) :: s.live.map slotOf

end Layout

/-! ### Slots -/

/-- Two slots have no byte in common. -/
def Apart (a b : Nat × Nat) : Prop := a.2 = 0 ∨ b.2 = 0 ∨ a.1 + a.2 ≤ b.1 ∨ b.1 + b.2 ≤ a.1

/-- Slots apart from each other, aligned and below the frontier. -/
structure Laid (frontier : Nat) (l : List (Nat × Nat)) : Prop where
  apart : l.Pairwise Apart
  within : ∀ a ∈ l, extentAlign ∣ a.1 ∧ extentAlign ∣ a.2 ∧ a.1 + a.2 ≤ frontier

theorem Apart.symm {a b : Nat × Nat} (h : Apart a b) : Apart b a := by
  unfold Apart at *
  omega

variable {s : Nat}

namespace Laid

variable {n : Nat} {l l' : List (Nat × Nat)} {a b : Nat × Nat}

theorem subperm (h : Laid n l) (hsub : l'.Subperm l) : Laid n l' := by
  obtain ⟨m, hperm, hsub⟩ := hsub
  have hm : m.Pairwise Apart := h.apart.sublist hsub
  exact ⟨(hperm.pairwise_iff Apart.symm).mp hm, fun a ha => h.within a (hsub.subset (hperm.mem_iff.mpr ha))⟩

theorem perm (h : Laid n l) (hperm : l'.Perm l) : Laid n l' := h.subperm hperm.subperm

theorem split (h : Laid n (a :: l)) (hs : s ≤ a.2) (hdvd : extentAlign ∣ s) :
    Laid n ((a.1, s) :: (a.1 + s, a.2 - s) :: l) := by
  obtain ⟨hapart, hl⟩ := pairwise_cons.mp h.apart
  have ha := h.within a (by simp)
  simp only [Apart] at hapart
  refine ⟨?_, ?_⟩
  · simp only [pairwise_cons, mem_cons, forall_eq_or_imp, Apart]
    refine ⟨⟨by omega, fun b hb => ?_⟩, fun b hb => ?_, hl⟩ <;>
    · have := hapart b hb
      omega
  · simp only [mem_cons, forall_eq_or_imp]
    refine ⟨⟨ha.1, hdvd, by omega⟩, ⟨Nat.dvd_add ha.1 hdvd, Nat.dvd_sub ha.2.1 hdvd, by omega⟩, fun b hb => h.within b (by simp [hb])⟩

theorem join (h : Laid n (a :: b :: l)) (hab : a.1 + a.2 = b.1) : Laid n ((a.1, a.2 + b.2) :: l) := by
  obtain ⟨ha, hl⟩ := pairwise_cons.mp h.apart
  obtain ⟨hb, hl⟩ := pairwise_cons.mp hl
  have hwa := h.within a (by simp)
  have hwb := h.within b (by simp)
  refine ⟨pairwise_cons.mpr ⟨fun c hc => ?_, hl⟩, ?_⟩
  · have hac := ha c (by simp [hc])
    have hbc := hb c hc
    simp only [Apart] at *
    omega
  · simp only [mem_cons, forall_eq_or_imp]
    exact ⟨⟨hwa.1, Nat.dvd_add hwa.2.1 hwb.2.1, by omega⟩, fun c hc => h.within c (by simp [hc])⟩

theorem extend (h : Laid n l) (hn : extentAlign ∣ n) (hs : extentAlign ∣ s) : Laid (n + s) ((n, s) :: l) := by
  refine ⟨pairwise_cons.mpr ⟨fun b hb => ?_, h.apart⟩, ?_⟩
  · have := (h.within b hb).2.2
    simp only [Apart]
    omega
  · simp only [mem_cons, forall_eq_or_imp]
    refine ⟨⟨hn, hs, Nat.le_refl _⟩, fun b hb => ?_⟩
    obtain ⟨h₁, h₂, h₃⟩ := h.within b hb
    exact ⟨h₁, h₂, by omega⟩

end Laid

theorem dvd_slotLen (len : Nat) : extentAlign ∣ slotLen len := ⟨_, Nat.mul_comm _ _⟩

theorem slotLen_pos {len : Nat} (h : 0 < len) : 0 < slotLen len := by
  simp only [slotLen, extentAlign]
  omega

/-! ### The free list -/

section FreeList

variable {free : ExtTreeMap Nat Nat} {k v n : Nat} {l : List (Nat × Nat)} {a : Nat × Nat}

theorem mem_free {p : Nat × Nat} : p ∈ free.toList ↔ free[p.1]? = some p.2 := mem_toList_iff_getElem?_eq_some

theorem subperm_erase (free : ExtTreeMap Nat Nat) (k : Nat) : (free.erase k).toList.Subperm free.toList := by
  cases h : free[k]? with
  | none =>
    have heq : free.erase k = free := ext_getElem? fun a => by
      rw [lookup_erase]
      split
      · rename_i hka
        rw [← hka, h]
      · rfl
    rw [heq]
  | some v => exact ((sublist_cons_self _ _).subperm).trans (toList_perm_erase h).symm.subperm

theorem subperm_insert (free : ExtTreeMap Nat Nat) (k v : Nat) (l : List (Nat × Nat)) :
    ((free.insert k v).toList ++ l).Subperm ((k, v) :: (free.toList ++ l)) := by
  have heq : free.insert k v = (free.erase k).insert k v := ext_getElem? fun a => by
    rw [lookup_insert, lookup_insert, lookup_erase]
    split <;> rfl
  rw [heq, ← cons_append]
  refine (List.subperm_append_right l).mpr ((OrdMap.toList_perm_insert (by rw [lookup_erase, if_pos rfl]) v).subperm.trans ?_)
  exact (subperm_cons _).mpr (subperm_erase free k)

theorem sorted_free (free : ExtTreeMap Nat Nat) : free.toList.Pairwise fun p q => p.1 < q.1 :=
  free.ordered_keys_toList.imp Nat.compare_eq_lt.mp

theorem le_of_slotBefore {p q : Nat × Nat} (hp : PageFile.slotBefore free k = some p) (hq : q ∈ free.toList) (hlt : q.1 < k) :
    q.1 ≤ p.1 := by
  have hsorted : (free.toList.filter (·.1 < k)).Pairwise fun p q => p.1 < q.1 := (sorted_free free).filter _
  obtain ⟨init, hinit⟩ := getLast?_eq_some_iff.mp hp
  have hq : q ∈ init ++ [p] := hinit ▸ mem_filter.mpr ⟨hq, by simpa using hlt⟩
  rw [hinit] at hsorted
  rcases mem_append.mp hq with hq | hq
  · exact ((pairwise_append.mp hsorted).2.2 q hq p (by simp)).le
  · rw [mem_singleton.mp hq]

theorem laid_allocate {f : PageFile} (h : Laid f.frontier (f.free.toList ++ l)) (hf : extentAlign ∣ f.frontier)
    (hs : extentAlign ∣ s) :
    Laid (f.allocate s).2.frontier (((f.allocate s).1, s) :: ((f.allocate s).2.free.toList ++ l)) := by
  unfold PageFile.allocate
  split
  · rename_i p hp
    have hmem := mem_free.mp (mem_of_find?_eq_some hp)
    have hle : s ≤ p.2 := by simpa using find?_some hp
    have hsplit := (h.perm ((toList_perm_erase hmem).symm.append_right l)).split hle hs
    refine hsplit.subperm ((subperm_cons _).mpr ?_)
    split
    · exact subperm_insert _ _ _ l
    · exact (sublist_cons_self _ _).subperm
  · exact h.extend hf hs

theorem mem_of_slotBefore {p : Nat × Nat} (h : PageFile.slotBefore free k = some p) : free[p.1]? = some p.2 ∧ p.1 < k := by
  simpa [mem_free] using mem_filter.mp (mem_of_getLast? h)

theorem laid_joinBefore (h : Laid n (a :: (free.toList ++ l))) :
    Laid n ((PageFile.joinBefore free a).2 :: ((PageFile.joinBefore free a).1.toList ++ l)) := by
  unfold PageFile.joinBefore
  split
  · rename_i p hp
    split
    · rename_i hend
      have hperm := ((toList_perm_erase (mem_of_slotBefore hp).1).append_right l).cons a
      rw [Nat.add_comm a.2]
      exact (h.perm ((Perm.swap a p _).trans hperm.symm)).join hend
    · exact h
  · exact h

theorem laid_joinAfter (h : Laid n (a :: (free.toList ++ l))) :
    Laid n ((PageFile.joinAfter free a).toList ++ l) := by
  unfold PageFile.joinAfter
  split
  · rename_i next hnext
    have hperm := ((toList_perm_erase hnext).append_right l).cons a
    exact ((h.perm hperm.symm).join rfl).subperm (subperm_insert _ _ _ l)
  · exact h.subperm (subperm_insert _ _ _ l)

/-! ### Joined slots -/

/-- No free slot is empty or ends where another begins. -/
def Joined (free : ExtTreeMap Nat Nat) : Prop := ∀ o len, free[o]? = some len → 0 < len ∧ free[o + len]? = none

theorem Joined.erase (h : Joined free) (k : Nat) : Joined (free.erase k) := by
  intro o len ho
  rw [lookup_erase] at ho ⊢
  split at ho
  · cases ho
  · exact ⟨(h o len ho).1, by simp [(h o len ho).2]⟩

theorem Joined.insert (h : Joined free) (hv : 0 < v) (hnext : free[k + v]? = none)
    (hend : ∀ o len, free[o]? = some len → o + len ≠ k) : Joined (free.insert k v) := by
  intro o len ho
  rw [lookup_insert] at ho ⊢
  split at ho
  · rename_i heq
    cases ho
    subst heq
    rw [if_neg (by omega)]
    exact ⟨hv, hnext⟩
  · rw [if_neg (hend o len ho).symm]
    exact h o len ho

theorem laid_apart {o len o' len' : Nat} (h : Laid n (free.toList ++ l)) (ho : free[o]? = some len) (ho' : free[o']? = some len')
    (hne : o ≠ o') : Apart (o, len) (o', len') := by
  have : Std.Symm Apart := ⟨fun _ _ => Apart.symm⟩
  refine h.apart.forall (mem_append_left l (mem_free.mpr ho)) (mem_append_left l (mem_free.mpr ho')) ?_
  exact fun heq => hne (congrArg Prod.fst heq)

theorem joined_allocate {f : PageFile} (h : Laid f.frontier (f.free.toList ++ l)) (hj : Joined f.free) (hs : 0 < s) :
    Joined (f.allocate s).2.free := by
  unfold PageFile.allocate
  split
  · rename_i p hp
    have hmem := mem_free.mp (mem_of_find?_eq_some hp)
    split
    · refine (hj.erase p.1).insert (by omega) ?_ fun o len ho heq => ?_
      · rw [show p.1 + s + (p.2 - s) = p.1 + p.2 by omega, lookup_erase, (hj p.1 p.2 hmem).2, ite_self]
      · rw [lookup_erase] at ho
        split at ho
        · cases ho
        rename_i hne
        -- a slot that ends inside `p` meets it
        have hapart := laid_apart h ho hmem (Ne.symm hne)
        have hpos := (hj o len ho).1
        simp only [Apart] at hapart
        omega
    · exact hj.erase p.1
  · exact hj

theorem joined_joinBefore (h : Laid n (free.toList ++ l)) (hj : Joined free) (ha : 0 < a.2) :
    Joined (PageFile.joinBefore free a).1 ∧ 0 < (PageFile.joinBefore free a).2.2 ∧
      ∀ o len, (PageFile.joinBefore free a).1[o]? = some len → o + len ≠ (PageFile.joinBefore free a).2.1 := by
  unfold PageFile.joinBefore
  split
  · rename_i p hp
    obtain ⟨hmem, hlt⟩ := mem_of_slotBefore hp
    split
    · refine ⟨hj.erase p.1, Nat.add_pos_left ha _, fun o len ho (heq : o + len = p.1) => ?_⟩
      rw [lookup_erase] at ho
      split at ho
      · cases ho
      · rw [← heq, (hj o len ho).2] at hmem
        cases hmem
    · rename_i hend
      refine ⟨hj, ha, fun o len ho (heq : o + len = a.1) => ?_⟩
      -- a slot that ends there begins before `p` and reaches over it
      have hpos := (hj o len ho).1
      have hle : o ≤ p.1 := le_of_slotBefore (q := (o, len)) hp (mem_free.mpr ho) (show o < a.1 by omega)
      by_cases hop : o = p.1
      · subst hop
        cases ho.symm.trans hmem
        exact hend heq
      · have hapart := laid_apart h ho hmem hop
        have hpos' := (hj p.1 p.2 hmem).1
        simp only [Apart] at hapart
        omega
  · rename_i hnone
    refine ⟨hj, ha, fun o len ho (heq : o + len = a.1) => ?_⟩
    have hpos := (hj o len ho).1
    have hout := filter_eq_nil_iff.mp (getLast?_eq_none_iff.mp hnone) (o, len) (mem_free.mpr ho)
    exact hout (decide_eq_true (by omega))

theorem joined_joinAfter (hj : Joined free) (ha : 0 < a.2) (hend : ∀ o len, free[o]? = some len → o + len ≠ a.1) :
    Joined (PageFile.joinAfter free a) := by
  unfold PageFile.joinAfter
  split
  · rename_i next hnext
    refine (hj.erase _).insert (by omega) ?_ fun o len ho => ?_
    · rw [lookup_erase, ← Nat.add_assoc, (hj _ _ hnext).2, ite_self]
    rw [lookup_erase] at ho
    split at ho
    · cases ho
    · exact hend o len ho
  · rename_i hnext
    exact hj.insert ha hnext hend

end FreeList

/-- The allocation gets the lowest free slot that is large enough, or else the end of the file. -/
def FirstFit (f : PageFile) (slot : Nat) : Prop :=
  (∃ len, f.free[(f.allocate slot).1]? = some len ∧ slot ≤ len ∧
    ∀ (o : Nat) len', f.free[o]? = some len' → slot ≤ len' → (f.allocate slot).1 ≤ o) ∨
  ((f.allocate slot).1 = f.frontier ∧ ∀ (o : Nat) len, f.free[o]? = some len → len < slot)

theorem firstFit (f : PageFile) (slot : Nat) : FirstFit f slot := by
  unfold FirstFit PageFile.allocate
  split
  · rename_i p hp
    refine .inl ⟨p.2, mem_free.mp (mem_of_find?_eq_some hp), by simpa using find?_some hp, fun o len ho hle => ?_⟩
    obtain ⟨-, before, after, heq, hbefore⟩ := find?_eq_some_iff_append.mp hp
    have hsorted := sorted_free f.free
    have hmem : (o, len) ∈ f.free.toList := mem_free.mpr ho
    rw [heq] at hsorted hmem
    rcases mem_append.mp hmem with hmem | hmem
    · exact absurd hle (by simpa using hbefore (o, len) hmem)
    · rcases mem_cons.mp hmem with hmem | hmem
      · exact hmem ▸ Nat.le_refl _
      · exact ((pairwise_cons.mp (pairwise_append.mp hsorted).2.1).1 _ hmem).le
  · rename_i hnone
    exact .inr ⟨rfl, fun o len ho => by simpa using find?_eq_none.mp hnone (o, len) (mem_free.mpr ho)⟩

/-! ### Runs -/

/-- No empty image is written. -/
def FileOp.NonEmpty : FileOp → Prop
  | .write image _ => image ≠ []
  | .free _ => True

namespace Layout

/-- The slots are laid out; if no image is empty, the free ones are joined. -/
structure Inv (noEmpty : Prop) (s : Layout) : Prop where
  laid : Laid s.file.frontier s.slots
  frontier : extentAlign ∣ s.file.frontier
  joined : noEmpty → Joined s.file.free
  nonempty : noEmpty → ∀ e ∈ s.live, 0 < e.len

variable {noEmpty : Prop} {s s' : Layout} {op : FileOp}

theorem Inv.write (h : s.Inv noEmpty) {image : Bytes} (hne : noEmpty → image ≠ []) (written : Bool) :
    Inv noEmpty ⟨(s.file.writePage image written).2, (s.file.writePage image written).1.toList ++ s.live⟩ := by
  refine ⟨(laid_allocate h.laid h.frontier (dvd_slotLen image.length)).subperm ?_, ?_, fun hn => ?_, fun hn e he => ?_⟩
  · cases written with
    | false => exact (sublist_cons_self _ _).subperm
    | true => exact (Perm.trans (.append_left _ (.swap _ _ _)) perm_middle).subperm
  · simp only [PageFile.writePage, PageFile.allocate]
    split
    · exact h.frontier
    · exact Nat.dvd_add h.frontier (dvd_slotLen _)
  · exact joined_allocate h.laid (h.joined hn) (slotLen_pos (length_pos_iff.mpr (hne hn)))
  · rcases mem_append.mp he with he | he
    · cases written with
      | false => cases he
      | true => exact mem_singleton.mp he ▸ length_pos_iff.mpr (hne hn)
    · exact h.nonempty hn e he

theorem Inv.free (h : s.Inv noEmpty) {e : Extent} (he : e ∈ s.live) : Inv noEmpty ⟨s.file.freeExtent e, s.live.erase e⟩ := by
  have hlaid : Laid s.file.frontier (slotOf e :: (s.file.free.toList ++ (0, extentAlign) :: (s.live.erase e).map slotOf)) := by
    refine h.laid.perm (perm_middle.symm.trans (.append_left _ ?_))
    exact (Perm.swap _ _ _).trans (((perm_cons_erase he).map slotOf).symm.cons _)
  refine ⟨laid_joinAfter (laid_joinBefore hlaid), h.frontier, fun hn => ?_, fun hn e' he' =>
    h.nonempty hn e' (mem_of_mem_erase he')⟩
  obtain ⟨hj, hpos, hend⟩ := joined_joinBefore (a := slotOf e) h.laid (h.joined hn) (slotLen_pos (h.nonempty hn e he))
  exact joined_joinAfter hj hpos hend

theorem Inv.step (h : s.Inv noEmpty) (hne : noEmpty → op.NonEmpty) (hstep : s.step op = some s') : s'.Inv noEmpty := by
  cases op with
  | write image written =>
    cases hstep
    exact h.write hne written
  | free e =>
    obtain ⟨he, rfl⟩ := Runs.of_guard hstep
    exact h.free he

theorem inv_reopen (fileLen : Nat) : Inv noEmpty ⟨.reopen fileLen, []⟩ := by
  have hslots : slots ⟨.reopen fileLen, []⟩ = [(0, extentAlign)] := rfl
  refine ⟨⟨by simp [hslots], fun a ha => ?_⟩, dvd_slotLen _, fun _ o len ho => by simp [PageFile.reopen] at ho, by simp⟩
  rw [hslots, mem_singleton] at ha
  subst ha
  simp only [PageFile.reopen, slotLen, extentAlign]
  omega

end Layout

/-- **Page-file extents never overlap.** After any writes and frees the superblock, the slots in use and
the free slots are apart, aligned and below the frontier, and an allocation gets the lowest free slot that
fits; if no empty image was written, no two free slots are adjacent. -/
theorem extents_never_overlap (fileLen : Nat) {ops : List FileOp} {s : Layout}
    (h : Runs.run Layout.step ⟨.reopen fileLen, []⟩ ops = some s) :
    s.slots.Pairwise Apart ∧
    (∀ a ∈ s.slots, extentAlign ∣ a.1 ∧ extentAlign ∣ a.2 ∧ a.1 + a.2 ≤ s.file.frontier) ∧
    ((∀ op ∈ ops, op.NonEmpty) → ∀ (o : Nat) len, s.file.free[o]? = some len → s.file.free[o + len]? = none) ∧
    ∀ slot, FirstFit s.file slot := by
  have hinv : s.Inv (∀ op ∈ ops, op.NonEmpty) := Runs.run_invariant_of_meets
    (fun _ _ _ hI hne hstep => hI.step hne hstep) (Layout.inv_reopen fileLen)
    (Runs.meets_of_forall fun op hop hne => hne op hop) h
  exact ⟨hinv.laid.apart, hinv.laid.within, fun hne o len ho => (hinv.joined hne o len ho).2, firstFit s.file⟩

/-- Three extents; the middle one goes, an empty image is put at its place, and all go. -/
def emptyImageRun : List FileOp :=
  [.write [0] true, .write [0] true, .write [0] true, .free ⟨512, 1⟩, .write [] true, .free ⟨256, 1⟩, .free ⟨512, 0⟩,
    .free ⟨768, 1⟩]

/-- One of the three extents is freed. -/
theorem extents_never_overlap_free : ∃ s, Runs.run Layout.step ⟨.reopen 0, []⟩ (emptyImageRun.take 4) = some s ∧
    s.file.free.toList = [(512, 256)] ∧ s.slots.Pairwise Apart := by
  obtain ⟨s, hs, hfree⟩ : ∃ s, Runs.run Layout.step ⟨.reopen 0, []⟩ (emptyImageRun.take 4) = some s ∧
    s.file.free.toList = [(512, 256)] := ⟨_, rfl, rfl⟩
  exact ⟨s, hs, hfree, (extents_never_overlap 0 hs).1⟩

/-- **An empty image keeps free slots apart.** The freed empty slot at 512 hides the slot at 256 from the one
at 768: both are free, and the first ends where the second begins. -/
theorem empty_image_splits_free_slots : ∃ s, Runs.run Layout.step ⟨.reopen 0, []⟩ emptyImageRun = some s ∧ s.live = [] ∧
    s.file.free[256]? = some 512 ∧ s.file.free[512]? = some 0 ∧ s.file.free[256 + 512]? = some 256 :=
  ⟨_, rfl, rfl, rfl, rfl, rfl⟩

end Pager
end Fluxum
