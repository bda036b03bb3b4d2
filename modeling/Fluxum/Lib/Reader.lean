/-
# Readers of byte strings

A decoder is a program that takes bytes from the front of its input. What it
makes of an encoding is one relation, kept by sequencing.
-/
import Fluxum.Lib.Bytes

abbrev Reader (ε α : Type) := StateT Bytes (Except ε) α

namespace Reader

open List

variable {ε α β : Type}

/-- The next `n` bytes; `eof` makes the error out of what is needed and what remains. -/
def take (eof : Nat → Nat → ε) (n : Nat) : Reader ε Bytes := fun input =>
  if input.length < n then .error (eof n input.length) else .ok (input.take n, input.drop n)

def many (r : Reader ε α) : Nat → Reader ε (List α)
  | 0 => pure []
  | n + 1 => do
    let a ← r
    let as ← many r n
    pure (a :: as)

/-- From an input that starts with `b`, the decoder consumes `b` and returns `a`. -/
def Reads (r : Reader ε α) (b : Bytes) (a : α) : Prop := ∀ rest, r.run (b ++ rest) = .ok (a, rest)

theorem reads_take (eof : Nat → Nat → ε) (b : Bytes) : Reads (take eof b.length) b b := by
  intro rest
  show (if (b ++ rest).length < b.length then _ else _) = _
  rw [if_neg (by simp), take_left, drop_left]

namespace Reads

variable {r : Reader ε α} {f : α → Reader ε β} {b c : Bytes} {a : α} {v : β}

theorem pure (a : α) : Reads (pure a : Reader ε α) [] a := fun _ => rfl

theorem bind (h : Reads r b a) (hf : Reads (f a) c v) : Reads (r >>= f) (b ++ c) v := by
  intro rest
  rw [append_assoc, StateT.run_bind, h]
  exact hf rest

theorem bind_pure (h : Reads r b a) (hf : f a = Pure.pure v) : Reads (r >>= f) b v := by
  rw [← append_nil b]
  exact h.bind (hf ▸ pure v)

theorem run_nil (h : Reads r b a) : r.run b = .ok (a, []) := by
  simpa using h []

end Reads

/-- Whatever the decoder accepts, `P` relates the value it returned to the bytes it consumed. -/
def Spells (r : Reader ε α) (P : α → Bytes → Prop) : Prop :=
  ∀ input a rest, r.run input = .ok (a, rest) → ∃ b, input = b ++ rest ∧ P a b

theorem spells_take (eof : Nat → Nat → ε) (n : Nat) : Spells (take eof n) fun a b => b = a ∧ a.length = n := by
  intro input a rest h
  change (if input.length < n then _ else _) = _ at h
  by_cases hlen : input.length < n
  · rw [if_pos hlen] at h
    cases h
  · rw [if_neg hlen] at h
    cases h
    exact ⟨input.take n, (take_append_drop n input).symm, rfl, length_take_of_le (by omega)⟩

theorem spells_throw (e : ε) (P : α → Bytes → Prop) : Spells (throw e : Reader ε α) P := fun _ _ _ h => nomatch h

namespace Spells

variable {r : Reader ε α} {f : α → Reader ε β} {P : α → Bytes → Prop} {Q : β → Bytes → Prop}

theorem pure {a : α} (h : P a []) : Spells (pure a : Reader ε α) P := by
  intro input v rest hrun
  cases hrun
  exact ⟨[], rfl, h⟩

theorem bind (h : Spells r P) (hf : ∀ a b, P a b → Spells (f a) fun v c => Q v (b ++ c)) : Spells (r >>= f) Q := by
  intro input v rest hrun
  rw [StateT.run_bind] at hrun
  cases hr : r.run input with
  | error e =>
    rw [hr] at hrun
    cases hrun
  | ok x =>
    rw [hr] at hrun
    obtain ⟨b, hb, hP⟩ := h input x.1 x.2 hr
    obtain ⟨c, hc, hQ⟩ := hf x.1 b hP x.2 v rest hrun
    exact ⟨b ++ c, by rw [hb, hc, append_assoc], hQ⟩

theorem bind_pure {g : α → β} (h : Spells r P) (hg : ∀ a b, P a b → Q (g a) b) :
    Spells (r >>= fun a => Pure.pure (g a)) Q :=
  h.bind fun a b hP => pure (by rw [append_nil]; exact hg a b hP)

theorem mono {P' : α → Bytes → Prop} (h : Spells r P) (hP : ∀ a b, P a b → P' a b) : Spells r P' := by
  intro input a rest hrun
  obtain ⟨b, hb, hab⟩ := h input a rest hrun
  exact ⟨b, hb, hP a b hab⟩

/-- A loop spells what its rounds spell, one behind the other. -/
theorem many {Q : List α → Bytes → Prop} (h : Spells r P) (hnil : Q [] [])
    (hcons : ∀ a as b c, P a b → Q as c → Q (a :: as) (b ++ c)) :
    ∀ n, Spells (many r n) fun as b => as.length = n ∧ Q as b
  | 0 => pure ⟨rfl, hnil⟩
  | n + 1 =>
    h.bind fun a b hP => (many h hnil hcons n).bind_pure fun as c hQ =>
      ⟨congrArg Nat.succ hQ.1, hcons a as b c hP hQ.2⟩

theorem of_run_nil {input : Bytes} {a : α} (h : Spells r P) (hrun : r.run input = .ok (a, [])) : P a input := by
  obtain ⟨b, hb, hP⟩ := h input a [] hrun
  rw [append_nil] at hb
  exact hb ▸ hP

end Spells

end Reader
