/-
# Reading a request

`http/wire.rs`: `read_request` fills one buffer from the socket, first up to
the end of the header block, then up to the declared length of the body. The
cap on a request without a session token is tested by `handle_post`, when the
whole body is in memory.

* `handshake_held`: the bytes held for a request without a session token, if no
  header block declares more than the bound leaves.
* `declared_length_unbounded`: a declared length that exceeds it.
-/
import Fluxum.Lib.Bytes
import Fluxum.Lib.Runs
import Mathlib.Data.List.DropRight

namespace Fluxum.Http

open Runs

/-! ### The header block -/

structure Request where
  method : List Char
  path : List Char
  headers : List (List Char × List Char)
  body : Bytes
deriving DecidableEq

def Request.header (r : Request) (name : String) : Option (List Char) := r.headers.lookup name.toList

/-- `char::is_whitespace`. -/
def isWhitespace (c : Char) : Bool :=
  (9 ≤ c.toNat && c.toNat ≤ 13) || (0x2000 ≤ c.toNat && c.toNat ≤ 0x200A) ||
    [0x20, 0x85, 0xA0, 0x1680, 0x2028, 0x2029, 0x202F, 0x205F, 0x3000].contains c.toNat

def trim (cs : List Char) : List Char := (cs.dropWhile isWhitespace).rdropWhile isWhitespace

/-- `split("\r\n")`. -/
def lines : List Char → List (List Char)
  | [] => [[]]
  | '\r' :: '\n' :: cs => [] :: lines cs
  | c :: cs => (lines cs).modifyHead (c :: ·)

/-- `split_once(':')`. -/
def splitOnce (line : List Char) : Option (List Char × List Char) :=
  match line.span (· ≠ ':') with
  | (name, _ :: value) => some (name, value)
  | (_, []) => none

/-- `parse::<usize>()`. -/
def parseUsize (cs : List Char) : Option Nat :=
  let digits := if cs.head? = some '+' then cs.tail else cs
  let n := digits.foldl (fun n d => 10 * n + (d.toNat - '0'.toNat)) 0
  if digits ≠ [] ∧ digits.all Char.isDigit ∧ n < 2 ^ 64 then some n else none

/-- The request without its body, and the `content-length`: the last one counts, and one that
cannot be parsed is 0. -/
def parseHead (head : List Char) : Request × Nat :=
  let parts := (((lines head).headD []).splitOnP isWhitespace).filter (· ≠ [])
  let headers := (lines head).tail.filterMap fun line =>
    (splitOnce line).map fun (name, value) => ((trim name).map Char.toLower, trim value)
  let contentLength := headers.foldl (fun n (name, value) =>
    if name = "content-length".toList then (parseUsize value).getD 0 else n) 0
  (⟨parts.headD [], parts.getD 1 [], headers, []⟩, contentLength)

def findSubslice (needle : Bytes) : Bytes → Option Nat
  | [] => none
  | b :: bs => if needle <+: b :: bs then some 0 else (findSubslice needle bs).map (· + 1)

/-- Where the header block ends. -/
def headersEnd : Bytes → Option Nat := findSubslice [13, 10, 13, 10]

theorem headersEnd_le : ∀ {buf : Bytes} {e : Nat}, headersEnd buf = some e → e + 4 ≤ buf.length
  | b :: bs, e, h => by
    rw [headersEnd, findSubslice] at h
    split at h
    · next hp =>
      cases h
      simpa using hp.length_le
    · obtain ⟨e', he', rfl⟩ := Option.map_eq_some_iff.mp h
      have := headersEnd_le he'
      simp only [List.length_cons]
      omega

/-! ### A connection -/

inductive Phase where
  /-- In the loop for the header block. -/
  | head
  /-- In the loop for the body; the header block had `headersEnd` bytes. -/
  | body (headersEnd : Nat) (request : Request) (contentLength : Nat)
  /-- `read_request` has returned the request. -/
  | request (headersEnd : Nat) (request : Request)
  /-- It has returned `Ok(None)`, or an error. -/
  | ended (clean : Bool)
deriving DecidableEq

structure Conn where
  buf : Bytes
  phase : Phase
  /-- The statuses of the requests that `handle_post` refused. -/
  refused : List Nat

def Conn.held (c : Conn) : Nat :=
  match c.phase with
  | .head | .ended _ => c.buf.length
  | .body headersEnd _ _ => headersEnd + c.buf.length
  | .request headersEnd request => headersEnd + request.body.length + c.buf.length

/-- The session token, as far as the headers are read. -/
def Conn.token (c : Conn) : Option (List Char) :=
  match c.phase with
  | .body _ request _ | .request _ request => request.header "fluxum-session"
  | .head | .ended _ => none

inductive Event where
  /-- A read returns these bytes, none at the end of the stream. -/
  | read (bytes : Bytes)
  | readError
  /-- The request is dispatched. -/
  | post

/-- `header_eq`. -/
def Request.headerEq (r : Request) (name value : String) : Bool :=
  (r.header name).any fun v => (trim (v.takeWhile (· ≠ ';'))).map Char.toLower = value.toList

/-- The status with which `handle_post` refuses the request before it looks at the body. -/
def refusal (cap : Nat) (r : Request) : Option Nat :=
  if !r.headerEq "content-type" "application/x-fluxum" then some 415
  else if r.header "fluxum-session" = none ∧ cap < r.body.length then some 413
  else none

/-- The loop for the body, up to its next read. -/
def takeBody (e : Nat) (r : Request) (n : Nat) (c : Conn) : Conn :=
  if c.buf.length < n then { c with phase := .body e r n }
  else { c with buf := c.buf.drop n, phase := .request e { r with body := c.buf.take n } }

variable (lossy : Bytes → List Char) (cap : Nat)

/-- The loop for the header block, up to the next read. `lossy` is `String::from_utf8_lossy`. -/
def takeHead (c : Conn) : Conn :=
  match headersEnd c.buf with
  | none => { c with phase := .head }
  | some e =>
    let (r, n) := parseHead (lossy (c.buf.take e))
    takeBody e r n { c with buf := c.buf.drop (e + 4) }

def step (c : Conn) : Event → Option Conn
  | .read bytes =>
    match c.phase with
    | .head =>
      if 4096 < bytes.length then none
      else if bytes = [] then some { c with buf := [], phase := .ended true }
      else if 64 * 1024 < (c.buf ++ bytes).length then some { c with buf := c.buf ++ bytes, phase := .ended false }
      else some (takeHead lossy { c with buf := c.buf ++ bytes })
    | .body e r n =>
      if 8192 < bytes.length then none
      else if bytes = [] then some { c with buf := [], phase := .ended true }
      else some (takeBody e r n { c with buf := c.buf ++ bytes })
    | .request _ _ | .ended _ => none
  | .readError =>
    match c.phase with
    | .head | .body _ _ _ => some { c with buf := [], phase := .ended false }
    | .request _ _ | .ended _ => none
  | .post =>
    match c.phase with
    | .request _ r => some (takeHead lossy { c with refused := c.refused ++ (refusal cap r).toList })
    | .head | .body _ _ _ | .ended _ => none

def start : Conn := ⟨[], .head, []⟩

/-! ### The bound -/

/-- A header block without a session token that ends in `buf` declares no more than the bound
leaves for the body. -/
def Fits (buf : Bytes) : Prop :=
  ∀ e ∈ headersEnd buf, (parseHead (lossy (buf.take e))).1.header "fluxum-session" = none →
    e + (parseHead (lossy (buf.take e))).2 ≤ 64 * 1024 + cap + 1

def Declared (c : Conn) : Event → Prop
  | .read bytes => c.phase = .head → Fits lossy cap (c.buf ++ bytes)
  | .readError => True
  | .post => Fits lossy cap c.buf

/-- What the reading has buffered in each phase. -/
def Bounded (c : Conn) : Prop :=
  match c.phase with
  | .head => c.buf.length ≤ 64 * 1024
  | .body e r n => c.buf.length < n ∧ (r.header "fluxum-session" = none → e + n ≤ 64 * 1024 + cap + 1)
  | .request _ _ => c.buf.length ≤ 64 * 1024 ∧ (c.token = none → c.held ≤ 64 * 1024 + cap + 8192)
  | .ended _ => c.buf.length ≤ 64 * 1024 + 4096

variable {lossy cap} {c : Conn} {e n : Nat} {r : Request}

theorem Bounded.held_le (h : Bounded cap c) (ht : c.token = none) : c.held ≤ 64 * 1024 + cap + 8192 := by
  cases hp : c.phase <;> simp only [Bounded, Conn.token, hp] at h ht <;> simp only [Conn.held, hp] at h ⊢
  case body => have := h.2 ht; omega
  case request => exact h.2 ht
  all_goals omega

theorem bounded_takeBody (hfits : r.header "fluxum-session" = none → e + n ≤ 64 * 1024 + cap + 1)
    (hheld : r.header "fluxum-session" = none → e + c.buf.length ≤ 64 * 1024 + cap + 8192)
    (hbehind : c.buf.length ≤ 64 * 1024 + n) : Bounded cap (takeBody e r n c) := by
  rw [takeBody]
  split
  · next hlt => exact ⟨hlt, hfits⟩
  refine ⟨?_, fun ht => ?_⟩
  · rw [List.length_drop]
    omega
  · have := hheld ht
    simp only [Conn.held, List.length_take, List.length_drop]
    omega

theorem bounded_takeHead (hlen : c.buf.length ≤ 64 * 1024) (hfits : Fits lossy cap c.buf) :
    Bounded cap (takeHead lossy c) := by
  rw [takeHead]
  split
  · exact hlen
  next e he =>
  have hle := headersEnd_le he
  have hdrop : (c.buf.drop (e + 4)).length = _ := List.length_drop
  exact bounded_takeBody (hfits e he) (fun _ => by dsimp only; omega) (by dsimp only; omega)

theorem bounded_step {ev : Event} {c' : Conn} (h : Bounded cap c) (hC : Declared lossy cap c ev)
    (hs : step lossy cap c ev = some c') : Bounded cap c' := by
  cases hp : c.phase <;> cases ev <;> simp only [step, hp, reduceCtorEq] at hs <;> simp only [Bounded, hp] at h
  case head.read bytes =>
    have happ : (c.buf ++ bytes).length = _ := List.length_append
    split_ifs at hs <;> cases hs
    · exact Nat.zero_le _
    · simp only [Bounded]
      omega
    · exact bounded_takeHead (by dsimp only; omega) (hC hp)
  case body.read e r n bytes =>
    have happ : (c.buf ++ bytes).length = _ := List.length_append
    split_ifs at hs <;> cases hs
    · exact Nat.zero_le _
    · exact bounded_takeBody h.2 (fun ht => by have := h.2 ht; dsimp only; omega) (by dsimp only; omega)
  case head.readError | body.readError =>
    cases hs
    exact Nat.zero_le _
  case request.post =>
    cases hs
    exact bounded_takeHead h.1 hC

/-- **The bytes held for a request without a session token.** In a connection whose header
blocks declare no more than the bound leaves, they are within the header limit, the cap and one
read; and the reading ends with the stream. -/
theorem handshake_held {events : List Event} (hC : Meets (step lossy cap) (Declared lossy cap) start events)
    (hr : run (step lossy cap) start events = some c) :
    (c.token = none → c.held ≤ 64 * 1024 + cap + 8192) ∧
      ((c.phase = .head ∨ ∃ e r n, c.phase = .body e r n) →
        ∃ c', step lossy cap c (.read []) = some c' ∧ c'.phase = .ended true) := by
  refine ⟨(run_invariant_of_meets (fun _ _ _ => bounded_step) (Nat.zero_le _) hC hr).held_le, ?_⟩
  rintro (hp | ⟨e, r, n, hp⟩) <;> exact ⟨{ c with buf := [], phase := .ended true }, by simp [step, hp], rfl⟩

/-- `lossy` on ASCII. -/
def ascii (bytes : Bytes) : List Char := bytes.map fun b => Char.ofNat b.toNat

/-- A header block that declares a body of so many bytes. -/
def declaring (length : String) : Bytes :=
  ("POST /rpc HTTP/1.1\r\nContent-Length: ".toList ++ length.toList ++ "\r\n\r\n".toList).map fun c => UInt8.ofNat c.toNat

/-- A header block in two reads, and half of the body. -/
def shortReads : List Event := [.read ((declaring "2").take 20), .read ((declaring "2").drop 20), .read [0]]

theorem handshake_held_short : ∃ c, run (step ascii 65536) start shortReads = some c ∧ c.token = none ∧ c.buf = [0] ∧
    c.held ≤ 64 * 1024 + 65536 + 8192 ∧ ∃ c', step ascii 65536 c (.read []) = some c' ∧ c'.phase = .ended true := by
  have hC : Meets (step ascii 65536) (Declared ascii 65536) start shortReads := by
    refine ⟨fun _ => by unfold Fits; decide, fun c hc => ?_⟩
    cases hc
    refine ⟨fun _ => by unfold Fits; decide, fun c hc => ?_⟩
    cases hc
    exact ⟨nofun, fun _ _ => trivial⟩
  obtain ⟨c, hr, htoken, hbuf, hbody⟩ : ∃ c, run (step ascii 65536) start shortReads = some c ∧ c.token = none ∧ c.buf = [0] ∧
      ∃ e r n, c.phase = .body e r n :=
    ⟨_, by rfl, by rfl, by rfl, _, _, _, by rfl⟩
  obtain ⟨hheld, hends⟩ := handshake_held hC hr
  exact ⟨c, hr, htoken, hbuf, hheld htoken, hends (.inr hbody)⟩

/-- The body loop reads on as long as less is there than was declared. -/
theorem run_reads {bytes : Bytes} (hne : bytes ≠ []) (hle : bytes.length ≤ 8192) (refused : List Nat) :
    ∀ (k : Nat) (buf : Bytes), buf.length + k * bytes.length < n →
      ∃ buf', run (step lossy cap) ⟨buf, .body e r n, refused⟩ (.replicate k (.read bytes)) =
        some ⟨buf', .body e r n, refused⟩ ∧ buf'.length = buf.length + k * bytes.length
  | 0, buf, _ => ⟨buf, rfl, by simp⟩
  | k + 1, buf, h => by
    have happ : (buf ++ bytes).length = _ := List.length_append
    rw [Nat.succ_mul] at h ⊢
    obtain ⟨buf', hr, hlen⟩ := run_reads hne hle refused k (buf ++ bytes) (by omega)
    refine ⟨buf', run_cons_eq_some.mpr ⟨_, ?_, hr⟩, by omega⟩
    simp [step, takeBody, hne, hle, show buf.length + bytes.length < n by omega]

theorem declared_length_unbounded : ∃ events c, run (step ascii 65536) start events = some c ∧ c.token = none ∧
    64 * 1024 + 65536 + 8192 < c.held := by
  obtain ⟨buf, hr, hlen⟩ := @run_reads ascii 65536 43 1000000 (parseHead (ascii ((declaring "1000000").take 43))).1 [0]
    (by decide) (by decide) [] 200000 [] (by decide)
  refine ⟨.read (declaring "1000000") :: _, _, run_cons_eq_some.mpr ⟨_, by rfl, hr⟩, by rfl, ?_⟩
  show _ < 43 + buf.length
  rw [hlen]
  decide

end Fluxum.Http
